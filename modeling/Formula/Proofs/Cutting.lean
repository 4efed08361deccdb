import Formula.Evaluate
import Formula.Proofs.Scanning.Cursor

namespace Formula

namespace Text

theorem width_eq_utf8ByteSize (s : List Char) : width s = (String.ofList s).utf8ByteSize := by
  induction s with
  | nil => rfl
  | cons c s ih =>
    have hcons : String.ofList (c :: s) = String.singleton c ++ String.ofList s := by
      rw [String.singleton_eq_ofList, ← String.ofList_append]
      rfl
    rw [width_cons, ih, hcons, String.utf8ByteSize_append, String.utf8ByteSize_singleton]

def Span.Holds (span : Span) (text slice : String) : Prop :=
  ∃ before after, text = before ++ slice ++ after ∧ before.utf8ByteSize = span.offset ∧
    slice.utf8ByteSize = span.length

theorem holds_of_toList_eq {text : String} {us slice vs : List Char} (h : text.toList = us ++ slice ++ vs) :
    Span.Holds ⟨width us, width slice⟩ text (String.ofList slice) := by
  refine ⟨String.ofList us, String.ofList vs, ?_, ?_, ?_⟩
  · rw [← String.ofList_append, ← String.ofList_append, ← h, String.ofList_toList]
  · exact (width_eq_utf8ByteSize us).symm
  · exact (width_eq_utf8ByteSize slice).symm

theorem Span.Holds.stop_le {span : Span} {text slice : String} (h : span.Holds text slice) :
    span.stop ≤ text.utf8ByteSize := by
  obtain ⟨before, after, rfl, ho, hl⟩ := h
  rw [String.utf8ByteSize_append, String.utf8ByteSize_append, Span.stop]
  omega

theorem Span.Holds.length_le {span : Span} {text slice : String} (h : span.Holds text slice) :
    slice.utf8ByteSize ≤ text.utf8ByteSize := by
  obtain ⟨before, after, rfl, -, -⟩ := h
  rw [String.utf8ByteSize_append, String.utf8ByteSize_append]
  omega

theorem Span.Holds.isValid {span : Span} {text slice : String} (h : span.Holds text slice) :
    (String.Pos.Raw.mk span.offset).IsValid text ∧ (String.Pos.Raw.mk span.stop).IsValid text := by
  obtain ⟨before, after, rfl, ho, hl⟩ := h
  constructor
  · apply String.Pos.Raw.isValid_iff_exists_append.mpr
    refine ⟨before, slice ++ after, String.append_assoc, ?_⟩
    rw [← ho]
    rfl
  · apply String.Pos.Raw.isValid_iff_exists_append.mpr
    refine ⟨before ++ slice, after, rfl, ?_⟩
    rw [Span.stop, ← ho, ← hl, ← String.utf8ByteSize_append]
    rfl

end Text

namespace Literal

def runs : Literal → List (List Char × List Char)
  | based _ marker digits => [(['0', marker], digits)]
  | decimal whole fraction exponent =>
    let mantissa := (decimal whole fraction none).text
    ([], whole) :: fraction.toList.map (fun f => (whole ++ ['.'], f)) ++
      exponent.toList.map fun e => (mantissa ++ e.marker :: e.sign.toList, e.digits)

theorem text_of_mem_runs {l : Literal} {before run : List Char} (h : (before, run) ∈ l.runs) :
    ∃ after, l.text = before ++ run ++ after := by
  cases l with
  | based radix marker digits =>
    obtain ⟨rfl, rfl⟩ := Prod.mk.inj (List.mem_singleton.mp h)
    exact ⟨[], by simp [text]⟩
  | decimal whole fraction exponent =>
    rcases List.mem_append.mp h with h | h
    · rcases List.mem_cons.mp h with h | h
      · obtain ⟨rfl, rfl⟩ := Prod.mk.inj h
        exact ⟨(decimal [] fraction exponent).text, by simp [text]⟩
      · obtain ⟨f, hf, he⟩ := List.mem_map.mp h
        obtain ⟨rfl, rfl⟩ := Prod.mk.inj he
        obtain rfl := Option.mem_toList.mp hf
        exact ⟨(exponent.map Exponent.text).getD [], by cases exponent <;> simp [text]⟩
    · obtain ⟨e, he, hpair⟩ := List.mem_map.mp h
      obtain ⟨rfl, rfl⟩ := Prod.mk.inj hpair
      obtain rfl := Option.mem_toList.mp he
      exact ⟨[], by simp [text, Exponent.text]⟩

end Literal

theorem Symbol.width_spelling (x : Symbol) : Text.width x.spelling = x.spelling.length := by
  cases x <;> rfl

def Text.Span.Contains (span : Text.Span) (byte : Nat) : Prop := span.offset ≤ byte ∧ byte < span.stop

structure Cutting (text : String) (items : List Item) : Prop where
  nonempty : ∀ x ∈ items, 0 < x.span.length
  increasing : items.Pairwise fun x y => x.span.offset < y.span.offset
  disjoint : items.Pairwise fun x y => x.span.stop ≤ y.span.offset
  inside : ∀ x ∈ items, x.span.stop ≤ text.utf8ByteSize
  boundaries : ∀ x ∈ items, (String.Pos.Raw.mk x.span.offset).IsValid text ∧
    (String.Pos.Raw.mk x.span.stop).IsValid text
  slices : ∀ x ∈ items, x.span.Holds text (String.ofList x.slice)
  blanks : ∀ before c after byte, text = before ++ String.singleton c ++ after →
    before.utf8ByteSize ≤ byte → byte < before.utf8ByteSize + c.utf8Size →
    (∀ x ∈ items, ¬x.span.Contains byte) → Text.isBlank c

section

variable {text : String} {items : List Item}

theorem Cut.holds (h : Cut 0 text.toList items) {x : Item} (hx : x ∈ items) :
    x.span.Holds text (String.ofList x.slice) := by
  obtain ⟨us, c, rest, hs, -, rfl⟩ := h.exists_lexeme hx
  obtain ⟨vs, hslice⟩ := Lexeme.slice_prefix c rest
  rw [Lexeme.span_locate, Lexeme.slice_locate, Nat.zero_add]
  apply Text.holds_of_toList_eq
  rw [hs, List.append_assoc, hslice]

theorem Cut.isBlank_of_uncovered (h : Cut 0 text.toList items) {before after : String} {c : Char}
    {byte : Nat} (ht : text = before ++ String.singleton c ++ after)
    (hstart : before.utf8ByteSize ≤ byte) (hstop : byte < before.utf8ByteSize + c.utf8Size)
    (hnone : ∀ x ∈ items, ¬x.span.Contains byte) : Text.isBlank c := by
  refine Decidable.byContradiction fun hc => ?_
  have hs : text.toList = before.toList ++ c :: after.toList := by
    rw [ht, String.toList_append, String.toList_append, String.toList_singleton, List.append_assoc]
    rfl
  have hwidth : Text.width before.toList = before.utf8ByteSize := by
    rw [Text.width_eq_utf8ByteSize, String.ofList_toList]
  obtain ⟨x, hx, hlow, hhigh⟩ := h.exists_covering hs hc
  rw [hwidth, Nat.zero_add] at hlow hhigh
  exact hnone x hx ⟨by omega, by omega⟩

theorem Cut.cutting (h : Cut 0 text.toList items) : Cutting text items where
  nonempty x hx := h.length_pos hx
  increasing := by
    refine h.stop_le_offset.imp_of_mem fun {x y} hx _ hxy => ?_
    have hpos := h.length_pos hx
    rw [Text.Span.stop] at hxy
    omega
  disjoint := h.stop_le_offset
  inside x hx := (h.holds hx).stop_le
  boundaries x hx := (h.holds hx).isValid
  slices x hx := h.holds hx
  blanks before c after byte := h.isBlank_of_uncovered

end

theorem Cursor.Within.holds_rest {text : String} {k : Cursor} (h : k.Within text.toList) :
    ∃ before, text = before ++ String.ofList k.rest ∧ before.utf8ByteSize = k.offset := by
  obtain ⟨us, hs, hoffset⟩ := h.place
  refine ⟨String.ofList us, ?_, ?_⟩
  · rw [← String.ofList_append, ← hs, String.ofList_toList]
  · rw [hoffset, Text.width_eq_utf8ByteSize]

theorem holds_of_append {text before rest : String} {us run vs : List Char} (ht : text = before ++ rest)
    (hr : rest.toList = us ++ run ++ vs) :
    Text.Span.Holds ⟨before.utf8ByteSize + Text.width us, Text.width run⟩ text (String.ofList run) := by
  have hs : text.toList = (before.toList ++ us) ++ run ++ vs := by
    rw [ht, String.toList_append, hr]
    simp only [List.append_assoc]
  have hholds := Text.holds_of_toList_eq hs
  rwa [Text.width_append, Text.width_eq_utf8ByteSize before.toList, String.ofList_toList] at hholds

theorem cursor_cuts_text (text : String) :
    Cutting text (tokenize text) ∧
    (∀ n, (Cursor.ofText text.toList).run (List.replicate n .next) =
      (List.range n).map fun i => (tokenize text)[i]?) ∧
    (∀ n x, (tokenize text)[n]? = some x →
      ((Cursor.ofText text.toList).after (List.replicate (n + 1) .next)).offset = x.span.stop) ∧
    (∀ steps, ∃ before,
      text = before ++ String.ofList ((Cursor.ofText text.toList).after steps).rest ∧
      before.utf8ByteSize = ((Cursor.ofText text.toList).after steps).offset) ∧
    ∀ before rest, text = before ++ rest →
      (∀ x, Symbol.scan? rest.toList = some x →
        Text.Span.Holds ⟨before.utf8ByteSize, x.spelling.length⟩ text (String.ofList x.spelling)) ∧
      ∀ ahead run, (ahead, run) ∈ (Literal.scan rest.toList).runs →
        Text.Span.Holds ⟨before.utf8ByteSize + Text.width ahead, Text.width run⟩ text
          (String.ofList run) := by
  have hin (steps : List Cursor.Step) : ((Cursor.ofText text.toList).after steps).Within text.toList :=
    (Cursor.within_ofText text.toList).after steps
  refine ⟨(Item.scanFrom_cut 0 text.toList).cutting, fun n => Cursor.run_next _ n, fun n x hx => ?_,
    fun steps => (hin steps).holds_rest, fun before rest ht => ⟨fun x hx => ?_, fun ahead run hr => ?_⟩⟩
  · rw [List.replicate_succ', Cursor.after_append]
    apply (hin (List.replicate n .next)).offset_next
    rw [(Cursor.next_eq _).1, Cursor.unread_after, List.count_replicate_self, List.head?_drop]
    exact hx
  · obtain ⟨vs, hvs⟩ := Symbol.scan?_prefix hx
    rw [← x.width_spelling]
    exact holds_of_append ht (show rest.toList = [] ++ x.spelling ++ vs from hvs.symm)
  · obtain ⟨vs, hvs⟩ := (Literal.scan_scanned rest.toList).1
    obtain ⟨after, htext⟩ := Literal.text_of_mem_runs hr
    apply holds_of_append ht
    rw [← hvs, htext, List.append_assoc]

end Formula
