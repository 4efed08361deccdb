import Formula.Proofs.Parsing.Reading
import Formula.Proofs.Parsing.Translation

namespace Formula

open Parse

def shiftAnswer (d : Nat) (answer : Except Fault Expr) : Except Fault Expr :=
  (answer.map (·.shift d)).mapError (·.shift d)

theorem result_shift (d : Nat) (r : Parsed Phrase) :
    (r.shift d (·.shift d)).result.map Phrase.expr = shiftAnswer d (r.result.map Phrase.expr) := by
  rcases r with ⟨f | p, n⟩
  · rfl
  · exact congrArg Except.ok (p.expr_shift d)

theorem Parse.used_le_bind {α β : Type} {p : Parse α} {k : α → Parse β} {all : List Item} :
    (p all).used ≤ ((p >>= k) all).used := by
  rcases hr : p all with ⟨f | x, n⟩
  · simp only [bind_of_error hr, Nat.le_refl]
  · rw [bind_of_ok hr]
    exact Nat.le_add_right _ _

theorem Parse.used_whole_pos {depth : Nat} {atEnd : Text.Span} {x : Item} {rest : List Item} (h : 0 < depth) :
    0 < (whole depth atEnd (x :: rest)).used := by
  obtain ⟨levels, rfl⟩ : ∃ levels, depth = levels + 1 := ⟨depth - 1, by omega⟩
  have hnext : 0 < (next (x :: rest)).used := by
    cases x <;> exact Nat.one_pos
  have hphrase : (next (x :: rest)).used ≤
      (phrase (levels + 1) atEnd (levels + 1) 0 (x :: rest)).used :=
    Nat.le_trans used_le_bind used_le_bind
  exact Nat.lt_of_lt_of_le hnext (Nat.le_trans hphrase used_le_bind)

theorem Parse.whole_nil {depth : Nat} {atEnd : Text.Span} (h : 0 < depth) :
    whole depth atEnd [] = ⟨.error (.syntactic (.unexpectedEnd .expression atEnd)), 0⟩ := by
  obtain ⟨levels, rfl⟩ : ∃ levels, depth = levels + 1 := ⟨depth - 1, by omega⟩
  exact bind_of_error (phrase_of_operand_error rfl)

namespace Reader

variable {limits : Limits} {length : Nat} {s : List Char} {r : Reader}

def parser (limits : Limits) (length : Nat) (r : Reader) : Parser := ⟨limits, length, r.unread⟩

structure Idle (s : List Char) (r : Reader) : Prop where
  depth_eq : r.depth = 0
  within : r.cursor.Within s

theorem idle_ofText (s : List Char) : (ofText s).Idle s := ⟨rfl, Cursor.within_ofText s⟩

theorem parse_follows (limits : Limits) (length : Nat) (h : r.Idle s) :
    ∃ behind, r.parse limits length = some ((r.parser limits length).parse.1, behind) ∧
      (r.parser limits length).parse.2 = behind.parser limits length ∧ behind.Idle s := by
  by_cases hl : length ≤ limits.maxLength
  · have hb : min (limits.maxDepth + 1) (r.unread.length + 1) ≤ r.unread.length + 1 := Nat.min_le_right _ _
    obtain ⟨behind, hrun, hmoved⟩ :=
      @whole_follows s _ r limits.maxDepth ⟨length, 0⟩ h.depth_eq hb
    rw [Parser.parse_of_fits (show (r.parser limits length).length ≤ _ from hl)]
    refine ⟨behind, parse_of_whole hl hrun, ?_, hmoved.depth_eq.trans h.depth_eq, hmoved.within h.within⟩
    rw [parser, parser, hmoved.unread_eq]
    rfl
  · have hlong : limits.maxLength < length := Nat.not_le.mp hl
    rw [Parser.parse_of_too_long (show _ < (r.parser limits length).length from hlong)]
    exact ⟨r, parse_of_too_long hlong, rfl, h⟩

theorem answer_of_fits (hl : length ≤ limits.maxLength) :
    (r.parser limits length).parse.1 =
      (Parse.whole limits.maxDepth ⟨length, 0⟩ r.unread).result.map Phrase.expr :=
  congrArg Prod.fst (Parser.parse_of_fits hl)

theorem unread_of_fits (hl : length ≤ limits.maxLength) :
    (r.parser limits length).parse.2.unread =
      r.unread.drop (Parse.whole limits.maxDepth ⟨length, 0⟩ r.unread).used :=
  congrArg (fun q => q.2.unread) (Parser.parse_of_fits hl)

theorem parseTimes_follows (limits : Limits) (length : Nat) (h : r.Idle s) (calls : Nat) :
    ∃ behind, parseTimes limits length calls r = some ((r.parser limits length).parseTimes calls, behind) ∧
      behind.Idle s := by
  induction calls generalizing r with
  | zero => exact ⟨r, rfl, h⟩
  | succ n ih =>
    obtain ⟨middle, hfirst, hparser, hmiddle⟩ := parse_follows limits length h
    obtain ⟨behind, hrest, hbehind⟩ := ih hmiddle
    refine ⟨behind, ?_, hbehind⟩
    rw [parseTimes, hfirst, Parser.parseTimes, hparser]
    change Option.bind (parseTimes limits length n middle) _ = _
    rw [hrest]
    rfl

end Reader

/-- What a call does that finds the reader of the text between two calls: it answers as a new reader
does of what begins with the first item that is not read yet, with all spans moved there. -/
structure GoesOn (limits : Limits) (text : String) (r : Reader) (answer : Except Fault Expr)
    (behind : Reader) : Prop where
  depth_eq : behind.depth = 0
  of_too_long : limits.maxLength < Text.width text.toList →
    answer = .error (.syntactic (.tooLong (Text.width text.toList) limits.maxLength)) ∧ behind = r
  of_fits : Text.width text.toList ≤ limits.maxLength →
    ∃ before rest fresh last, text.toList = before ++ rest ∧ Text.width before = r.cursor.position ∧
      (Reader.ofText rest).parse limits (Text.width rest) = some (fresh, last) ∧
      answer = shiftAnswer (Text.width before) fresh ∧
      ∃ used, behind.unread = r.unread.drop used ∧
        (0 < limits.maxDepth → (0 < used ∧ r.unread ≠ []) ∨
          (answer = .error (.syntactic (.unexpectedEnd .expression ⟨Text.width text.toList, 0⟩)) ∧
            ∀ c ∈ rest, Text.isBlank c))

theorem whole_of_suffix (depth : Nat) (before rest : List Char) :
    whole depth ⟨Text.width (before ++ rest), 0⟩ (Item.scanFrom (Text.width before) 0 rest) =
      (whole depth ⟨Text.width rest, 0⟩ (Item.scan rest)).shift (Text.width before)
        (·.shift (Text.width before)) := by
  have hitems : Item.scanFrom (Text.width before) 0 rest =
      (Item.scan rest).map (·.shift (Text.width before)) := by
    have hshift := Item.scanFrom_shift (Text.width before) 0 0 rest
    rwa [Nat.zero_add] at hshift
  have hend : (⟨Text.width (before ++ rest), 0⟩ : Text.Span) =
      Text.Span.shift (Text.width before) ⟨Text.width rest, 0⟩ := by
    rw [Text.width_append, Text.Span.shift, Nat.add_comm]
  rw [hitems, hend]
  exact whole_translates

theorem goesOn_of_idle (limits : Limits) {text : String} {r : Reader} (h : r.Idle text.toList) :
    ∃ answer behind, r.parse limits (Text.width text.toList) = some (answer, behind) ∧
      GoesOn limits text r answer behind := by
  obtain ⟨behind, hrun, hparser, hidle⟩ := Reader.parse_follows limits (Text.width text.toList) h
  refine ⟨_, behind, hrun, hidle.depth_eq, fun hl => ?_, fun hl => ?_⟩
  · rw [Reader.parse_of_too_long hl] at hrun
    injection hrun with hpair
    injection hpair with hanswer hbehind
    exact ⟨hanswer.symm, hbehind.symm⟩
  · obtain ⟨before, rest, hs, hposition, hunread⟩ := h.within.exists_suffix
    have hunread : r.unread = Item.scanFrom (Text.width before) 0 rest := hunread
    have hrest : Text.width rest ≤ limits.maxLength := by
      rw [hs, Text.width_append] at hl
      omega
    obtain ⟨last, hfresh, -, -⟩ :=
      Reader.parse_follows limits (Text.width rest) (Reader.idle_ofText rest)
    refine ⟨before, rest, _, last, hs, hposition.symm, hfresh, ?_,
      (whole limits.maxDepth ⟨Text.width text.toList, 0⟩ r.unread).used, ?_, fun hdepth => ?_⟩
    · rw [Reader.answer_of_fits hl, Reader.answer_of_fits hrest, hunread, hs, whole_of_suffix, result_shift]
      rfl
    · exact (congrArg Parser.unread hparser).symm.trans (Reader.unread_of_fits hl)
    · rcases hr : r.unread with _ | ⟨x, more⟩
      · rw [Reader.answer_of_fits hl, hr, whole_nil hdepth]
        exact .inr ⟨rfl, Cursor.blank_of_scanFrom (hunread.symm.trans hr)⟩
      · exact .inl ⟨used_whole_pos hdepth, List.cons_ne_nil _ _⟩

theorem reader_goes_on (limits : Limits) (text : String) (calls : Nat) :
    ∃ answers r, Reader.parseTimes limits (Text.width text.toList) calls (.ofText text.toList) =
        some (answers, r) ∧
      answers = (Parser.ofText limits text.toList).parseTimes calls ∧ r.depth = 0 ∧
      ∃ answer behind, r.parse limits (Text.width text.toList) = some (answer, behind) ∧
        GoesOn limits text r answer behind := by
  obtain ⟨r, hrun, hidle⟩ :=
    Reader.parseTimes_follows limits (Text.width text.toList) (Reader.idle_ofText text.toList) calls
  exact ⟨_, r, hrun, rfl, hidle.depth_eq, goesOn_of_idle limits hidle⟩

end Formula
