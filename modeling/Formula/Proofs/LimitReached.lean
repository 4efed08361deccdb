import Formula.Proofs.Parsing.Blame
import Formula.Proofs.Placement

namespace Formula

open Parse

/-- A report of the limit before `rest` is read, whose items are `left`. It stands at the next item if that
is a token, and otherwise at the end of the text. -/
structure LimitReached (text : String) (rest : List Char) (left : List Item) (span : Text.Span) : Prop where
  of_token : ∀ t, left.head? = some (.ok t) → span = t.span
  starts_iff : ∀ x, left.head? = some x → (span.offset = x.span.offset ↔ ∃ t, x = .ok t)
  at_end_iff : span = ⟨Text.width text.toList, 0⟩ ↔
    (∀ c ∈ rest, Text.isBlank c) ∨ ∃ f, left.head? = some (.error f)

section

variable {text : String} {before rest : List Char} {x : Item} {span : Text.Span}

theorem Item.span_within (h : x ∈ tokenize text) :
    0 < x.span.length ∧ x.span.offset < Text.width text.toList := by
  have hcut : Cut 0 text.toList (tokenize text) := Item.scanFrom_cut 0 text.toList
  have hpos := hcut.length_pos h
  have hstop := (hcut.holds h).stop_le
  rw [Text.Span.stop, ← width_toList] at hstop
  exact ⟨hpos, by omega⟩

theorem limitReached_depthSpan (hleft : Item.scanFrom (Text.width before) 0 rest <:+ tokenize text) :
    LimitReached text rest (Item.scanFrom (Text.width before) 0 rest)
      (depthSpan ⟨Text.width text.toList, 0⟩ (Item.scanFrom (Text.width before) 0 rest)) := by
  rcases hs : Item.scanFrom (Text.width before) 0 rest with _ | ⟨f | t, more⟩
  · exact ⟨nofun, nofun, fun _ => .inl (Cursor.blank_of_scanFrom hs), fun _ => rfl⟩
  · rw [hs] at hleft
    obtain ⟨-, hlt⟩ := Item.span_within (hleft.subset List.mem_cons_self)
    refine ⟨nofun, ?_, fun _ => .inr ⟨f, rfl⟩, fun _ => rfl⟩
    rintro x ⟨⟩
    constructor
    · intro hoffset
      exact absurd hlt (Nat.not_lt.mpr (Nat.le_of_eq hoffset))
    · rintro ⟨t, ⟨⟩⟩
  · have hblank : ¬∀ c ∈ rest, Text.isBlank c := by
      intro hall
      rw [Item.scanFrom_of_blank hall] at hs
      cases hs
    rw [hs] at hleft
    obtain ⟨hpos, -⟩ := Item.span_within (hleft.subset List.mem_cons_self)
    refine ⟨?_, ?_, ?_, ?_⟩
    · rintro u ⟨⟩
      rfl
    · rintro x ⟨⟩
      exact ⟨fun _ => ⟨t, rfl⟩, fun _ => rfl⟩
    · intro hend
      have hlength : t.span.length = 0 := congrArg Text.Span.length hend
      exact absurd hlength (Nat.ne_of_gt hpos)
    · rintro (hall | ⟨f, ⟨⟩⟩)
      exact absurd hall hblank

end

theorem tooDeep_points_ahead {limits : Limits} {text : String} {depth : Nat} {span : Text.Span}
    (h : parse limits text = .error (.syntactic (.tooDeep depth span))) :
    ∃ r before rest, Reader.parse limits (Text.width text.toList) (.ofText text.toList) =
        some (.error (.syntactic (.tooDeep depth span)), r) ∧
      text.toList = before ++ rest ∧ Text.width before = r.cursor.position ∧
      r.unread = Item.scanFrom (Text.width before) 0 rest ∧ LimitReached text rest r.unread span := by
  have hl : Text.width text.toList ≤ limits.maxLength := by
    by_contra hl
    rw [parse_of_too_long (Nat.lt_of_not_le hl)] at h
    cases h
  obtain ⟨r, hrun, hparser, hidle⟩ :=
    Reader.parse_follows limits (Text.width text.toList) (Reader.idle_ofText text.toList)
  obtain ⟨before, rest, htext, hposition, hunread⟩ := hidle.within.exists_suffix
  have hunread : r.unread = Item.scanFrom (Text.width before) 0 rest := hunread
  refine ⟨r, before, rest, by rw [← h]; exact hrun, htext, hposition.symm, hunread, ?_⟩
  have hdrop : r.unread = (tokenize text).drop (whole _ _ (tokenize text)).used :=
    (congrArg Parser.unread hparser).symm.trans (Reader.unread_of_fits hl)
  rw [parse_eq_whole hl] at h
  rcases hr : whole limits.maxDepth ⟨Text.width text.toList, 0⟩ (tokenize text) with ⟨f | p, n⟩
  · rw [hr] at h
    obtain rfl := Except.error.inj h
    obtain ⟨hleft, rfl⟩ := whole_reports List.suffix_rfl _ _ hr
    rw [hr] at hdrop
    rw [← hdrop, hunread] at hleft ⊢
    exact limitReached_depthSpan hleft
  · rw [hr] at h
    cases h

theorem tooDeep_points_ahead_behind_bracket :
    parse { maxDepth := 2 } "-(π" = .error (.syntactic (.tooDeep 2 ⟨2, 2⟩)) ∧
    ∃ r before rest, Reader.parse { maxDepth := 2 } 4 (.ofText "-(π".toList) =
        some (.error (.syntactic (.tooDeep 2 ⟨2, 2⟩)), r) ∧
      "-(π".toList = before ++ rest ∧ Text.width before = r.cursor.position ∧
      r.unread = Item.scanFrom (Text.width before) 0 rest ∧ LimitReached "-(π" rest r.unread ⟨2, 2⟩ := by
  let minus : Token := ⟨.symbol .minus, ['-'], 0⟩
  let paren : Token := ⟨.symbol .leftParen, ['('], 1⟩
  let pi : Token := ⟨.name, ['π'], 2⟩
  let atEnd : Text.Span := ⟨4, 0⟩
  have hdeepest : phrase 2 atEnd 0 0 [.ok pi] = ⟨.error (.syntactic (.tooDeep 2 ⟨2, 2⟩)), 0⟩ := rfl
  have hbracketed : operand atEnd (phrase 2 atEnd 0) [.ok paren, .ok pi] = ⟨.error _, 1⟩ :=
    operand_bracketed_error rfl hdeepest
  have hsigned : operand atEnd (phrase 2 atEnd 1) [.ok minus, .ok paren, .ok pi] = ⟨.error _, 2⟩ :=
    operand_prefixed_error rfl (by decide) rfl (phrase_of_operand_error hbracketed)
  have hwhole : whole 2 atEnd [.ok minus, .ok paren, .ok pi] = ⟨.error _, 2⟩ :=
    bind_of_error (phrase_of_operand_error hsigned)
  have hl : Text.width "-(π".toList ≤ 4096 := by decide
  have hparse : parse { maxDepth := 2 } "-(π" = .error (.syntactic (.tooDeep 2 ⟨2, 2⟩)) :=
    (parse_eq_whole hl).trans (congrArg (fun r => r.result.map Phrase.expr) hwhole)
  exact ⟨hparse, tooDeep_points_ahead hparse⟩

theorem tooDeep_points_behind_stray_character :
    parse { maxDepth := 1 } "($" = .error (.syntactic (.tooDeep 1 ⟨2, 0⟩)) ∧
    ∃ r, Reader.parse { maxDepth := 1 } 2 (.ofText "($".toList) =
        some (.error (.syntactic (.tooDeep 1 ⟨2, 0⟩)), r) ∧
      r.unread = [.error (.strayCharacter '$' ⟨1, 1⟩)] := by
  let paren : Token := ⟨.symbol .leftParen, ['('], 0⟩
  let stray : Item := .error (.strayCharacter '$' ⟨1, 1⟩)
  let atEnd : Text.Span := ⟨2, 0⟩
  have hdeepest : phrase 1 atEnd 0 0 [stray] = ⟨.error (.syntactic (.tooDeep 1 ⟨2, 0⟩)), 0⟩ := rfl
  have hbracketed : operand atEnd (phrase 1 atEnd 0) [.ok paren, stray] = ⟨.error _, 1⟩ :=
    operand_bracketed_error rfl hdeepest
  have hwhole : whole 1 atEnd [.ok paren, stray] = ⟨.error _, 1⟩ :=
    bind_of_error (phrase_of_operand_error hbracketed)
  have hl : Text.width "($".toList ≤ 4096 := by decide
  have hparse : parse { maxDepth := 1 } "($" = .error (.syntactic (.tooDeep 1 ⟨2, 0⟩)) :=
    (parse_eq_whole hl).trans (congrArg (fun r => r.result.map Phrase.expr) hwhole)
  obtain ⟨r, hrun, hparser, -⟩ :=
    Reader.parse_follows { maxDepth := 1 } 2 (Reader.idle_ofText "($".toList)
  refine ⟨hparse, r, hrun.trans (congrArg (fun x => some (x, r)) hparse), ?_⟩
  have hdrop : r.unread = [.ok paren, stray].drop (whole 1 atEnd [.ok paren, stray]).used :=
    (congrArg Parser.unread hparser).symm.trans (Reader.unread_of_fits hl)
  rw [hdrop, hwhole]
  rfl

end Formula
