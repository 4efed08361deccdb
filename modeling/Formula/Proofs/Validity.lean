import Formula.Alphabet
import Formula.Proofs.Parsing.Recognition
import Formula.Proofs.Scanning.Lexeme

namespace Formula

namespace Alphabet

theorem eq_false_of_ascii {p q : Char → Bool}
    (h : ∀ n < 128, p (Char.ofNat n) → q (Char.ofNat n) = false) {c : Char} (hc : c.toNat < 128)
    (hp : p c) : q c = false := by
  have hn := h c.toNat hc
  rw [Char.ofNat_toNat] at hn
  exact hn hp

theorem lt_of_continuesNumber {c : Char} (h : continuesNumber c) : c.toNat < 128 := by
  change (((((decide (65 ≤ c.val ∧ c.val ≤ 90) || (97 ≤ c.val && c.val ≤ 122)) ||
    (48 ≤ c.val && c.val ≤ 57)) || c == '_') || c == '.') = true) at h
  simp only [Bool.or_eq_true, Bool.and_eq_true, decide_eq_true_eq, beq_iff_eq,
    UInt32.le_iff_toNat_le] at h
  change (((((65 ≤ c.toNat ∧ c.toNat ≤ 90) ∨ 97 ≤ c.toNat ∧ c.toNat ≤ 122) ∨
    48 ≤ c.toNat ∧ c.toNat ≤ 57) ∨ c = '_') ∨ c = '.') at h
  rcases h with (h | rfl) | rfl
  · omega
  · decide
  · decide

theorem standsAlone_of_continuesNumber {c : Char} (h : continuesNumber c) : standsAlone c = false := by
  have hall : ∀ n < 128, continuesNumber (Char.ofNat n) → standsAlone (Char.ofNat n) = false := by
    decide
  exact eq_false_of_ascii hall (lt_of_continuesNumber h) h

theorem continuesNumber_of_isDigit {c : Char} (h : c.isDigit) : continuesNumber c := by
  simp [continuesNumber, Text.continuesName, Char.isAlphanum, h]

theorem continuesNumber_of_beginsNumber {c : Char} (h : beginsNumber c) : continuesNumber c := by
  rcases (Bool.or_eq_true _ _).mp h with hdigit | hpoint
  · exact continuesNumber_of_isDigit hdigit
  · simp [continuesNumber, hpoint]

theorem continuesNumber_of_continuesName {c : Char} (h : Text.continuesName c) : continuesNumber c := by
  simp [continuesNumber, h]

theorem continuesNumber_of_inRun {c : Char} (h : Literal.inRun c) : continuesNumber c := by
  rcases (Bool.or_eq_true _ _).mp h with hdigit | hline
  · exact continuesNumber_of_isDigit hdigit
  · simp [continuesNumber, Text.continuesName, hline]

theorem continuesName_of_beginsName {c : Char} (h : Text.beginsName c) : Text.continuesName c := by
  have halpha : c.isAlpha := h
  simp [Text.continuesName, Char.isAlphanum, halpha]

theorem beginsNumber_of_beginsName {c : Char} (h : Text.beginsName c) : beginsNumber c = false := by
  have hall : ∀ n < 128, Text.beginsName (Char.ofNat n) → beginsNumber (Char.ofNat n) = false := by
    decide
  have hc := continuesNumber_of_continuesName (continuesName_of_beginsName h)
  exact eq_false_of_ascii hall (lt_of_continuesNumber hc) h

section

variable {c : Char} {us vs rest : List Char}

theorem covers_standsAlone (h : standsAlone c) : covers (c :: rest) = covers rest := by
  rw [covers, if_pos h]

theorem covers_number (h : beginsNumber c) :
    covers (c :: rest) = covers ((c :: rest).dropWhile continuesNumber) := by
  have hc := continuesNumber_of_beginsNumber h
  rw [covers, standsAlone_of_continuesNumber hc, if_neg Bool.false_ne_true, if_pos h,
    List.dropWhile_cons_of_pos hc]

theorem covers_name (h : Text.beginsName c) :
    covers (c :: rest) = (isKnownName (c :: rest.takeWhile Text.continuesName) &&
      covers (rest.dropWhile Text.continuesName)) := by
  have hc := continuesNumber_of_continuesName (continuesName_of_beginsName h)
  rw [covers, standsAlone_of_continuesNumber hc, if_neg Bool.false_ne_true,
    beginsNumber_of_beginsName h, if_neg Bool.false_ne_true, if_pos h]

theorem covers_append_of_standsAlone (h : ∀ c ∈ us, standsAlone c) : covers (us ++ vs) = covers vs := by
  induction us with
  | nil => rfl
  | cons c us ih =>
    rw [List.cons_append, covers_standsAlone (h c List.mem_cons_self)]
    exact ih fun d hd => h d (List.mem_cons_of_mem _ hd)

theorem dropWhile_of_standsAlone (h : standsAlone c) :
    (c :: rest).dropWhile continuesNumber = c :: rest := by
  apply List.dropWhile_cons_of_neg
  intro hc
  rw [standsAlone_of_continuesNumber hc] at h
  cases h

end

theorem continuesNumber_of_marker {c : Char} {r : Radix} (h : Literal.radixOfMarker? c = some r) :
    continuesNumber c := by
  rcases Literal.radixOfMarker?_eq_some_iff.mp h with ⟨rfl | rfl, -⟩ | ⟨rfl | rfl, -⟩ <;> decide

theorem continuesNumber_of_mem_mantissa {whole : List Char} {fraction : Option (List Char)}
    (hwhole : ∀ c ∈ whole, Literal.inRun c) (hfraction : ∀ f, fraction = some f → ∀ c ∈ f, Literal.inRun c) :
    ∀ c ∈ (Literal.decimal whole fraction none).text, continuesNumber c := by
  intro c hc
  cases fraction with
  | none =>
    simp only [Literal.text, List.append_nil] at hc
    exact continuesNumber_of_inRun (hwhole c hc)
  | some f =>
    simp only [Literal.text, List.append_nil, List.mem_append, List.mem_cons] at hc
    rcases hc with hc | rfl | hc
    · exact continuesNumber_of_inRun (hwhole c hc)
    · decide
    · exact continuesNumber_of_inRun (hfraction f rfl c hc)

theorem text_cases {l : Literal} (h : l.Scanned) :
    (∀ c ∈ l.text, continuesNumber c) ∨
      ∃ before sign d ds, l.text = before ++ sign :: d :: ds ∧ (∀ c ∈ before, continuesNumber c) ∧
        standsAlone sign ∧ d.isDigit ∧ ∀ c ∈ ds, continuesNumber c := by
  cases l with
  | based radix marker digits =>
    obtain ⟨hmarker, hdigits⟩ := h
    have hall : ∀ c ∈ digits, continuesNumber c :=
      fun c hc => continuesNumber_of_continuesName (hdigits c hc)
    have hmarked : ∀ c ∈ marker :: digits, continuesNumber c :=
      List.forall_mem_cons.mpr ⟨continuesNumber_of_marker hmarker, hall⟩
    exact .inl (List.forall_mem_cons.mpr ⟨by decide, hmarked⟩)
  | decimal whole fraction exponent =>
    obtain ⟨hwhole, hfraction, hexponent⟩ := h
    have hbefore := continuesNumber_of_mem_mantissa hwhole hfraction
    cases exponent with
    | none => exact .inl hbefore
    | some e =>
      obtain ⟨hmarker, hsign, d, ds, hdigits, hd, hds⟩ := hexponent e rfl
      have hdstail : ∀ c ∈ ds, continuesNumber c := fun c hc => continuesNumber_of_inRun (hds c hc)
      have hmark : continuesNumber e.marker := by
        rcases hmarker with hm | hm <;> rw [hm] <;> decide
      have hmarked : ∀ c ∈ (Literal.decimal whole fraction none).text ++ [e.marker],
          continuesNumber c :=
        List.forall_mem_append.mpr ⟨hbefore, List.forall_mem_singleton.mpr hmark⟩
      have htext : (Literal.decimal whole fraction (some e)).text =
          ((Literal.decimal whole fraction none).text ++ [e.marker]) ++ (e.sign.toList ++ d :: ds) := by
        simp [Literal.text, Literal.Exponent.text, hdigits]
      cases hs : e.sign with
      | none =>
        rw [hs] at htext
        have hrun : ∀ c ∈ d :: ds, continuesNumber c :=
          List.forall_mem_cons.mpr ⟨continuesNumber_of_isDigit hd, hdstail⟩
        exact .inl (htext ▸ List.forall_mem_append.mpr ⟨hmarked, hrun⟩)
      | some sign =>
        rw [hs] at htext
        have halone : standsAlone sign := by
          rcases hsign sign hs with rfl | rfl <;> decide
        exact .inr ⟨_, sign, d, ds, htext, hmarked, halone, hd, hdstail⟩

theorem covers_dropWhile_text {l : Literal} (h : l.Scanned) (rest : List Char) :
    covers ((l.text ++ rest).dropWhile continuesNumber) = covers (rest.dropWhile continuesNumber) := by
  rcases text_cases h with hall | ⟨before, sign, d, ds, htext, hbefore, hsign, hd, hds⟩
  · rw [List.dropWhile_append_of_pos hall]
  · have hdigits : ∀ c ∈ d :: ds, continuesNumber c :=
      List.forall_mem_cons.mpr ⟨continuesNumber_of_isDigit hd, hds⟩
    have hbegins : beginsNumber d := by simp [beginsNumber, hd]
    rw [htext, List.append_assoc, List.dropWhile_append_of_pos hbefore, List.cons_append,
      dropWhile_of_standsAlone hsign, covers_standsAlone hsign, List.cons_append, covers_number hbegins,
      ← List.cons_append, List.dropWhile_append_of_pos hdigits]

def Clean (s : List Char) : Prop :=
  ∃ offset, ∀ x ∈ Item.scanFrom offset 0 s, ∃ t, x = .ok t ∧ (t.kind = .name → isKnownName t.slice)

theorem Clean.of_blank {c : Char} {rest : List Char} (h : Clean (c :: rest)) (hc : Text.isBlank c) :
    Clean rest := by
  obtain ⟨offset, h⟩ := h
  rw [Item.scanFrom_blank hc] at h
  exact ⟨_, h⟩

theorem Clean.of_lexeme {c : Char} {rest : List Char} (h : Clean (c :: rest)) (hc : ¬Text.isBlank c) :
    ∃ kind slice vs, Lexeme.scan c rest = .token kind slice ∧ c :: rest = slice ++ vs ∧
      vs.length ≤ rest.length ∧ (kind = .name → isKnownName slice) ∧ Clean vs := by
  obtain ⟨offset, h⟩ := h
  obtain ⟨us, vs, hslice, rfl⟩ := Lexeme.exists_slice_eq_cons c rest
  have hsplit : c :: (us ++ vs) = (Lexeme.scan c (us ++ vs)).slice ++ vs := by
    rw [hslice, List.cons_append]
  rw [Item.scanFrom_lexeme hc hsplit] at h
  have hrest : Clean vs := ⟨_, fun x hx => h x (List.mem_cons_of_mem _ hx)⟩
  obtain ⟨t, ht, hname⟩ := h _ List.mem_cons_self
  have hlength : vs.length ≤ (us ++ vs).length := by
    rw [List.length_append]
    exact Nat.le_add_left _ _
  rcases hscan : Lexeme.scan c (us ++ vs) with ⟨kind, slice⟩ | ⟨flaw, slice⟩ | d
  · rw [hscan] at ht hsplit
    cases ht
    exact ⟨kind, slice, vs, rfl, hsplit, hlength, hname, hrest⟩
  · rw [hscan] at ht
    cases ht
  · rw [hscan] at ht
    cases ht

theorem beginsNumber_of_beginsAt {c : Char} {rest : List Char} (h : Literal.beginsAt (c :: rest)) :
    beginsNumber c := by
  simp only [Literal.beginsAt, Bool.or_eq_true, Bool.and_eq_true] at h
  rcases h with hdigit | ⟨hpoint, -⟩
  · simp [beginsNumber, hdigit]
  · simp [beginsNumber, hpoint]

theorem covers_of_standsAlone {c : Char} {us vs rest : List Char} (h : ∀ d ∈ us, standsAlone d)
    (hne : us ≠ []) (hsplit : c :: rest = us ++ vs) (hv : covers vs) :
    covers (c :: rest) ∧ covers ((c :: rest).dropWhile continuesNumber) := by
  have hc : standsAlone c := by
    rcases us with _ | ⟨d, us⟩
    · exact absurd rfl hne
    · injection hsplit with hd
      exact hd ▸ h d List.mem_cons_self
  rw [dropWhile_of_standsAlone hc, hsplit, covers_append_of_standsAlone h]
  exact ⟨hv, hv⟩

theorem covers_of_name {c : Char} {vs rest : List Char} (hc : Text.beginsName c)
    (hknown : isKnownName (c :: rest.takeWhile Text.continuesName))
    (hsplit : c :: rest = (c :: rest.takeWhile Text.continuesName) ++ vs) (hv : covers vs)
    (hdrop : covers (vs.dropWhile continuesNumber)) :
    covers (c :: rest) ∧ covers ((c :: rest).dropWhile continuesNumber) := by
  constructor
  · have hrest : rest.dropWhile Text.continuesName = vs := by
      have h : rest.takeWhile Text.continuesName ++ rest.dropWhile Text.continuesName =
          rest.takeWhile Text.continuesName ++ vs := by
        rw [List.takeWhile_append_dropWhile]
        injection hsplit
      exact List.append_cancel_left h
    rw [covers_name hc, hknown, hrest, hv]
    rfl
  · have htail : ∀ d ∈ rest.takeWhile Text.continuesName, continuesNumber d :=
      fun d hd => continuesNumber_of_continuesName (Literal.of_mem_takeWhile hd)
    have hall : ∀ d ∈ c :: rest.takeWhile Text.continuesName, continuesNumber d :=
      List.forall_mem_cons.mpr
        ⟨continuesNumber_of_continuesName (continuesName_of_beginsName hc), htail⟩
    rw [hsplit, List.dropWhile_append_of_pos hall]
    exact hdrop

theorem standsAlone_of_mem_spelling {s : Symbol} {c : Char} (h : c ∈ s.spelling) : standsAlone c := by
  have hall : s.spelling.all standsAlone = true := by
    cases s <;> rfl
  exact List.all_eq_true.mp hall c h

-- A run of number characters may go on over the end of a literal, into the next token, so the rest of
-- a text has to be covered from behind such a run on as well.
theorem Clean.covers {s : List Char} (h : Clean s) :
    covers s ∧ covers (s.dropWhile continuesNumber) := by
  match s, h with
  | [], _ => exact ⟨by rw [Alphabet.covers], by rw [List.dropWhile_nil, Alphabet.covers]⟩
  | c :: rest, h =>
    by_cases hblank : Text.isBlank c
    · have halone : standsAlone c := by simp [standsAlone, hblank]
      rw [dropWhile_of_standsAlone halone, covers_standsAlone halone]
      exact ⟨(h.of_blank hblank).covers.1, (h.of_blank hblank).covers.1⟩
    · obtain ⟨kind, slice, vs, hscan, hsplit, hlength, hname, hrest⟩ := h.of_lexeme hblank
      obtain ⟨hcovers, hdrop⟩ := hrest.covers
      rcases Lexeme.token_cases hscan with
        ⟨hbegins, rfl⟩ | ⟨hbegins, rfl, rfl⟩ | ⟨hletter, rfl⟩ | ⟨x, rfl⟩
      · have hnumber : Alphabet.covers ((c :: rest).dropWhile continuesNumber) := by
          rw [hsplit, covers_dropWhile_text (Literal.scan_scanned _).2]
          exact hdrop
        rw [covers_number (beginsNumber_of_beginsAt hbegins)]
        exact ⟨hnumber, hnumber⟩
      · exact covers_of_name hbegins (hname rfl) hsplit hcovers hdrop
      · have halone : standsAlone c := by simp [standsAlone, hletter]
        exact covers_of_standsAlone (List.forall_mem_singleton.mpr halone) (by simp) hsplit hcovers
      · have halone : ∀ d ∈ x.spelling, standsAlone d := fun d hd => standsAlone_of_mem_spelling hd
        exact covers_of_standsAlone halone x.spelling_ne_nil hsplit hcovers
termination_by s.length

end Alphabet

open Alphabet

theorem clean_of_derivation {text : String} {ts : List Token} {p : Phrase}
    (ht : tokenize text = Token.items ts) (h : Derivation ts p) : Clean text.toList := by
  refine ⟨0, fun x hx => ?_⟩
  have hmem : x ∈ Token.items ts := ht ▸ hx
  obtain ⟨t, htmem, rfl⟩ := List.mem_map.mp hmem
  exact ⟨t, rfl, h.derives.known t htmem⟩

theorem not_all_isBlank_of_derivation {text : String} {ts : List Token} {p : Phrase}
    (ht : tokenize text = Token.items ts) (h : Derivation ts p) :
    text.toList.all Text.isBlank = false := by
  rw [Bool.eq_false_iff]
  intro hblank
  have hempty : tokenize text = [] := Item.scanFrom_of_blank (List.all_eq_true.mp hblank) 0
  obtain ⟨t, us, rfl, -⟩ := h.derives.head
  rw [hempty] at ht
  cases ht

theorem looksValid_of_parse (limits : Limits) (text : String)
    (h : (∃ e, parse limits text = .ok e) ∨ ∃ x, evaluate limits text = .ok x) :
    looksValid text = true := by
  have hparse : ∃ e, parse limits text = .ok e := by
    rcases h with h | ⟨x, hx⟩
    · exact h
    · rcases hp : parse limits text with f | e
      · rw [evaluate, hp] at hx
        cases hx
      · exact ⟨e, rfl⟩
  obtain ⟨e, he⟩ := hparse
  obtain ⟨ts, p, ht, hd, -⟩ := derivation_of_parse_eq he
  rw [looksValid, (clean_of_derivation ht hd).covers.1, not_all_isBlank_of_derivation ht hd]
  rfl

theorem looksValid_of_signed_exponent :
    (∃ e, parse {} "abs(1e+5)" = .ok e) ∧ looksValid "abs(1e+5)" = true := by
  let name : Token := ⟨.name, ['a', 'b', 's'], 0⟩
  let paren : Token := ⟨.symbol .leftParen, ['('], 3⟩
  let value : Float := (Literal.toDecimal ['1'] [] (some ⟨'e', some '+', ['5']⟩)).toFloat
  let number : Token := ⟨.number value, ['1', 'e', '+', '5'], 4⟩
  let close : Token := ⟨.symbol .rightParen, [')'], 8⟩
  have ht : tokenize "abs(1e+5)" = Token.items [name, paren, number, close] := rfl
  have hnumber : Derives .comparison [number] (.number value) :=
    (Derives.number rfl).loosen (by decide)
  have hcall : Derives .primary [name, paren, number, close]
      (.call "abs" (.unary Float.abs) [.number value] ⟨0, 9⟩) :=
    @Derives.call name paren close _ _ _ rfl rfl rfl (.last hnumber) rfl
  have hd : Derivation [name, paren, number, close] (.call "abs" (.unary Float.abs) [.number value] ⟨0, 9⟩) :=
    ⟨hcall.loosen (by decide), rfl, trivial, trivial⟩
  have hl : Text.width "abs(1e+5)".toList ≤ 4096 := by decide
  have hok : parse {} "abs(1e+5)" = .ok (.call "abs" (.unary Float.abs) [.number value] ⟨0, 9⟩) :=
    hd.parse_eq hl ht (show 2 ≤ 64 by decide)
  exact ⟨⟨_, hok⟩, looksValid_of_parse {} "abs(1e+5)" (.inl ⟨_, hok⟩)⟩
end Formula
