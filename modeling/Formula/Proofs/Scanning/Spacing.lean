import Mathlib.Data.List.Chain
import Mathlib.Data.List.Forall2
import Formula.Evaluate
import Formula.Proofs.Scanning.Slices

namespace Formula

namespace Token

def spaced (pieces : List (Token × List Char)) : List Char :=
  pieces.flatMap fun x => x.1.slice ++ x.2

def Apart (pieces : List (Token × List Char)) : Prop :=
  pieces.IsChain fun x y => x.2 = [] → x.1.span.stop = y.1.span.offset

structure Reads (t t' : Token) : Prop where
  kind_eq : t'.kind = t.kind
  slice_eq : t'.slice = t.slice

theorem spaced_cons (t : Token) (w : List Char) (pieces : List (Token × List Char)) :
    spaced ((t, w) :: pieces) = t.slice ++ (w ++ spaced pieces) := by
  rw [spaced, List.flatMap_cons, List.append_assoc]
  rfl

end Token

namespace Cut

open Token (Reads Apart spaced)

variable {offset : Nat} {s w : List Char} {x : Item} {rest : List Item} {t : Token}
  {pieces : List (Token × List Char)}

theorem of_cons (h : Cut offset s (x :: rest)) (ho : x.span.offset = offset) :
    ∃ c us vs, s = c :: (us ++ vs) ∧ ¬Text.isBlank c ∧ x = (Lexeme.scan c (us ++ vs)).locate offset ∧
      (Lexeme.scan c (us ++ vs)).slice = c :: us ∧ Cut x.span.stop vs rest := by
  generalize hitems : x :: rest = items at h
  cases h with
  | nil => cases hitems
  | @blank _ c s _ hc h =>
    have hle : offset + c.utf8Size ≤ x.span.offset := h.offset_le (hitems ▸ List.mem_cons_self)
    have hpos := c.utf8Size_pos
    omega
  | @piece _ c s vs _ hc hs h =>
    injection hitems with hx hitems
    obtain ⟨us, hslice, rfl⟩ := Lexeme.exists_slice_of_append hs
    refine ⟨c, us, vs, rfl, hc, hx, hslice, ?_⟩
    rwa [hx, Lexeme.span_locate, Text.Span.stop, hitems]

theorem agrees_until_break (h : Cut offset s (pieces.map fun x => .ok x.1))
    (hadjacent : ∀ x ∈ pieces.head?, w = [] → x.1.span.offset = offset) (hw : ∀ c ∈ w, Text.isBlank c)
    (hb : ∀ x ∈ pieces, ∀ c ∈ x.2, Text.isBlank c) (ha : Apart pieces) :
    ∃ more g g', s = more ++ g ∧ w ++ spaced pieces = more ++ g' ∧ Text.Breaks g' := by
  -- The induction goes on as long as there are no blanks between the tokens.
  induction pieces generalizing offset s w with
  | nil =>
    refine ⟨[], s, w, rfl, List.append_nil w, ?_⟩
    rcases w with _ | ⟨c, w⟩
    · exact Text.breaks_nil
    · exact Text.breaks_cons (Text.endsLexeme_of_isBlank (hw c List.mem_cons_self))
  | cons y pieces ih =>
    obtain ⟨t, v⟩ := y
    rcases w with _ | ⟨c, w⟩
    · obtain ⟨hnext, hapart⟩ := List.isChain_cons.mp ha
      obtain ⟨hv, hrest⟩ := List.forall_mem_cons.mp hb
      obtain ⟨c, us, vs, rfl, hc, ht, hslice, hcut⟩ := h.of_cons (hadjacent _ rfl rfl)
      obtain ⟨more, g, g', rfl, hspaced, hg⟩ :=
        ih hcut (fun x hx hnil => (hnext x hx hnil).symm) hv hrest hapart
      obtain ⟨hlexeme, -⟩ := Lexeme.locate_eq_ok ht.symm
      rw [hlexeme] at hslice
      refine ⟨c :: us ++ more, g, g', by rw [List.append_assoc, List.cons_append], ?_, hg⟩
      rw [List.nil_append, Token.spaced_cons, hspaced, List.append_assoc]
      exact congrArg (· ++ _) hslice
    · exact ⟨[], s, _, rfl, rfl, Text.breaks_cons (Text.endsLexeme_of_isBlank (hw c List.mem_cons_self))⟩

theorem spaced (h : Cut offset s (pieces.map fun x => .ok x.1))
    (hb : ∀ x ∈ pieces, ∀ c ∈ x.2, Text.isBlank c) (ha : Apart pieces) (offset' : Nat) :
    ∃ ts, Cut offset' (spaced pieces) (ts.map .ok) ∧ List.Forall₂ Reads (pieces.map Prod.fst) ts := by
  induction pieces generalizing offset s offset' with
  | nil => exact ⟨[], .nil, .nil⟩
  | cons y pieces ih =>
    obtain ⟨t, w⟩ := y
    obtain ⟨hw, hrest⟩ := List.forall_mem_cons.mp hb
    obtain ⟨hnext, hapart⟩ := List.isChain_cons.mp ha
    obtain ⟨-, vs, -, -, -, hcut⟩ := @split _ _ [] _ _ h
    obtain ⟨c, us, vs, rfl, hc, ht, hslice, hcut⟩ := hcut.of_cons rfl
    obtain ⟨ts, hts, hreads⟩ := ih hcut hrest hapart (offset' + Text.width t.slice + Text.width w)
    obtain ⟨more, g, g', rfl, hspaced, hg⟩ :=
      hcut.agrees_until_break (fun x hx hnil => (hnext x hx hnil).symm) hw hrest hapart
    obtain ⟨hlexeme, -⟩ := Lexeme.locate_eq_ok ht.symm
    have hsame := Lexeme.scan_of_slice hg hslice
    rw [hlexeme] at hslice hsame
    have htext : t.slice ++ (more ++ g') = c :: (us ++ (more ++ g')) := congrArg (· ++ _) hslice
    refine ⟨⟨t.kind, t.slice, offset'⟩ :: ts, ?_, .cons ⟨rfl, rfl⟩ hreads⟩
    have hpiece := @Cut.piece offset' c (us ++ (more ++ g')) (more ++ g') (ts.map .ok) hc
      (by rw [hsame]; exact htext.symm) (by rw [hsame, ← hspaced]; exact hts.of_blank_append hw)
    rw [hsame] at hpiece
    rw [Token.spaced_cons, hspaced, htext]
    exact hpiece

end Cut

end Formula
