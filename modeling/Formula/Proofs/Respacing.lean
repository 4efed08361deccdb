import Formula.Proofs.Evaluation
import Formula.Proofs.Parsing.Recognition
import Formula.Proofs.Parsing.Translation
import Formula.Proofs.Scanning.Spacing

namespace Formula

section

variable (move : Text.Span → Text.Span)

theorem mapError_bind {ε ε' α β : Type} (g : ε → ε') (x : Except ε α) (k : α → Except ε β) :
    (x >>= k).mapError g = x.mapError g >>= fun a => (k a).mapError g := by
  cases x <;> rfl

namespace Expr

theorem factorialAt_move (span : Text.Span) (x : Float) :
    factorialAt (move span) x = (factorialAt span x).mapError (·.mapSpans move) := by
  unfold factorialAt
  split <;> rfl

theorem callAt_move (name : String) (function : Builtin) (span : Text.Span) (args : List Float) :
    callAt name function (move span) args = (callAt name function span args).mapError (·.mapSpans move) := by
  unfold callAt
  split <;> rfl

mutual

theorem value_mapSpans (e : Expr) : (e.mapSpans move).value = e.value.mapError (·.mapSpans move) := by
  cases e with
  | number x => rw [mapSpans, value]; rfl
  | constant name x => rw [mapSpans, value]; rfl
  | prefixed op operand =>
    rw [mapSpans, value, value, value_mapSpans operand, mapError_bind]
    rfl
  | binary op left right =>
    rw [mapSpans, value, value, value_mapSpans left, value_mapSpans right]
    simp only [mapError_bind]
    rfl
  | factorial operand span =>
    rw [mapSpans, value, value, value_mapSpans operand, mapError_bind]
    simp only [factorialAt_move]
  | call name function args span =>
    rw [mapSpans, value, value, valueAll_mapSpansAll args, mapError_bind]
    simp only [callAt_move]

theorem valueAll_mapSpansAll (es : List Expr) :
    valueAll (mapSpansAll move es) = (valueAll es).mapError (·.mapSpans move) := by
  cases es with
  | nil => rw [mapSpansAll, valueAll]; rfl
  | cons e es =>
    rw [mapSpansAll, valueAll, valueAll, value_mapSpans e, valueAll_mapSpansAll es]
    simp only [mapError_bind]
    rfl

end

end Expr

end

theorem Token.Reads.alike {move move' : Text.Span → Text.Span} {t t' : Token} (h : t.Reads t')
    (hs : move t.span = move' t'.span) : t.Alike move move' t' := by
  refine ⟨⟨t'.offset, ?_⟩, hs⟩
  rw [← h.kind_eq, ← h.slice_eq]

def nowhere : Text.Span → Text.Span := fun _ => ⟨0, 0⟩

def Expr.unplaced (e : Expr) : Expr := e.mapSpans nowhere

def Fault.unplaced (f : Fault) : Fault := f.mapSpans nowhere

theorem tokenize_spaced {text text' : String} {lead : List Char} {pieces : List (Token × List Char)}
    (ht : tokenize text = pieces.map fun x => .ok x.1) (ht' : text'.toList = lead ++ Token.spaced pieces)
    (hlead : ∀ c ∈ lead, Text.isBlank c) (hb : ∀ x ∈ pieces, ∀ c ∈ x.2, Text.isBlank c)
    (ha : Token.Apart pieces) :
    ∃ ts : List Token, tokenize text' = ts.map .ok ∧ List.Forall₂ Token.Reads (pieces.map Prod.fst) ts := by
  have hcut : Cut 0 text.toList (pieces.map fun x => .ok x.1) := ht ▸ Item.scanFrom_cut 0 text.toList
  obtain ⟨ts, hts, hreads⟩ := hcut.spaced hb ha (0 + Text.width lead)
  refine ⟨ts, ?_, hreads⟩
  have hcut' := hts.of_blank_append hlead
  rw [← ht'] at hcut'
  exact hcut'.scanFrom_eq

theorem whole_unplaced {depth : Nat} {atEnd atEnd' : Text.Span} {ts ts' : List Token}
    (h : List.Forall₂ Token.Reads ts ts') :
    (((Parse.whole depth atEnd' (ts'.map .ok)).result.map Phrase.expr).map Expr.unplaced).mapError
        Fault.unplaced =
      (((Parse.whole depth atEnd (ts.map .ok)).result.map Phrase.expr).map Expr.unplaced).mapError
        Fault.unplaced := by
  have hitems : List.Forall₂ (Item.Alike nowhere nowhere) (ts.map .ok) (ts'.map .ok) := by
    rw [List.forall₂_map_left_iff, List.forall₂_map_right_iff]
    exact h.imp fun t t' hr => hr.alike rfl
  have halike : Parse.Alike nowhere nowhere (Phrase.Alike nowhere nowhere) (Parse.whole depth atEnd)
      (Parse.whole depth atEnd') (ts.map .ok) (ts'.map .ok) :=
    Parse.whole_alike (fun _ _ _ _ _ _ => rfl) rfl hitems
  rw [Parse.Alike] at halike
  generalize Parse.whole depth atEnd (ts.map .ok) = r at halike ⊢
  generalize Parse.whole depth atEnd' (ts'.map .ok) = r' at halike ⊢
  cases halike with
  | @ok p p' hp n =>
    have hexpr := congrArg Phrase.expr hp
    rw [Phrase.expr_mapSpans, Phrase.expr_mapSpans] at hexpr
    exact congrArg Except.ok hexpr.symm
  | error hf n => exact congrArg Except.error hf.symm

theorem evaluate_unplaced {limits : Limits} {text text' : String}
    (h : ((parse limits text').map Expr.unplaced).mapError Fault.unplaced =
      ((parse limits text).map Expr.unplaced).mapError Fault.unplaced) :
    (evaluate limits text').mapError Fault.unplaced = (evaluate limits text).mapError Fault.unplaced := by
  have heval (answer : Except Fault Expr) : (answer >>= Expr.eval).mapError Fault.unplaced =
      ((answer.map Expr.unplaced).mapError Fault.unplaced) >>= Expr.value := by
    rcases answer with f | e
    · rfl
    · have hmove := (Expr.value_mapSpans nowhere e).symm
      rw [← Expr.eval_eq_value] at hmove
      exact hmove
  rw [evaluate, evaluate, heval, heval, h]

theorem parse_ignores_blanks (limits : Limits) {text text' : String} {lead : List Char}
    {pieces : List (Token × List Char)} (ht : tokenize text = pieces.map fun x => .ok x.1)
    (ht' : text'.toList = lead ++ Token.spaced pieces) (hlead : ∀ c ∈ lead, Text.isBlank c)
    (hb : ∀ x ∈ pieces, ∀ c ∈ x.2, Text.isBlank c) (ha : Token.Apart pieces) :
    (∃ ts : List Token, tokenize text' = ts.map .ok ∧
      List.Forall₂ Token.Reads (pieces.map Prod.fst) ts) ∧
    (Text.width text.toList ≤ limits.maxLength → Text.width text'.toList ≤ limits.maxLength →
      ((parse limits text').map Expr.unplaced).mapError Fault.unplaced =
        ((parse limits text).map Expr.unplaced).mapError Fault.unplaced ∧
      (evaluate limits text').mapError Fault.unplaced =
        (evaluate limits text).mapError Fault.unplaced) := by
  obtain ⟨ts, hts, hreads⟩ := tokenize_spaced ht ht' hlead hb ha
  refine ⟨⟨ts, hts, hreads⟩, fun hl hl' => ?_⟩
  have hparse : ((parse limits text').map Expr.unplaced).mapError Fault.unplaced =
      ((parse limits text).map Expr.unplaced).mapError Fault.unplaced := by
    rw [parse_eq_whole hl, parse_eq_whole hl', hts, ht]
    have hwhole := @whole_unplaced limits.maxDepth ⟨Text.width text.toList, 0⟩
      ⟨Text.width text'.toList, 0⟩ _ _ hreads
    rwa [List.map_map] at hwhole
  exact ⟨hparse, evaluate_unplaced hparse⟩

theorem parse_ignores_blanks_around_power :
    let pieces : List (Token × List Char) :=
      [(⟨.name, ['π'], 0⟩, []), (⟨.symbol .caret, ['^'], 2⟩, ['\u3000']), (⟨.name, ['π'], 3⟩, ['\n'])]
    tokenize "π^π" = pieces.map (fun x => .ok x.1) ∧
    "\tπ^\u3000π\n".toList = ['\t'] ++ Token.spaced pieces ∧
    (∃ ts : List Token, tokenize "\tπ^\u3000π\n" = ts.map .ok ∧
      List.Forall₂ Token.Reads (pieces.map Prod.fst) ts) ∧
    ((parse {} "\tπ^\u3000π\n").map Expr.unplaced).mapError Fault.unplaced =
      ((parse {} "π^π").map Expr.unplaced).mapError Fault.unplaced ∧
    (evaluate {} "\tπ^\u3000π\n").mapError Fault.unplaced = (evaluate {} "π^π").mapError Fault.unplaced := by
  intro pieces
  have ht : tokenize "π^π" = pieces.map (fun x => .ok x.1) := rfl
  have ht' : "\tπ^\u3000π\n".toList = ['\t'] ++ Token.spaced pieces := rfl
  have ha : Token.Apart pieces := .cons_cons (fun _ => rfl) (.cons_cons nofun (.singleton _))
  have hlead : ∀ c ∈ ['\t'], Text.isBlank c := List.forall_mem_singleton.mpr rfl
  have hb : ∀ x ∈ pieces, ∀ c ∈ x.2, Text.isBlank c := by
    simp only [pieces, List.forall_mem_cons]
    exact ⟨nofun, ⟨rfl, nofun⟩, ⟨rfl, nofun⟩, nofun⟩
  obtain ⟨htokens, hsame⟩ := parse_ignores_blanks {} ht ht' hlead hb ha
  exact ⟨ht, ht', htokens, hsame (by decide) (by decide)⟩

end Formula
