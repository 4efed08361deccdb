import Formula.Evaluate
import Formula.Proofs.Literals
import Formula.Proofs.Scanning.Pieces

namespace Formula

namespace Literal

def HasDigit : Literal → Prop
  | based _ _ _ => True
  | decimal whole fraction _ => ∃ d ∈ whole ++ fraction.getD [], d.isDigit

structure WellFormed (l : Literal) : Prop where
  scanned : l.Scanned
  sound : l.Sound
  hasDigit : l.HasDigit

end Literal

def IsName (s : List Char) : Prop :=
  ∃ c rest, s = c :: rest ∧ c.isAlpha ∧ ∀ d ∈ rest, d.isAlphanum ∨ d = '_'

inductive IsLexeme : List Char → Prop where
  | number {l : Literal} (h : l.WellFormed) : IsLexeme l.text
  | name {s : List Char} (h : IsName s) : IsLexeme s
  | pi : IsLexeme ['π']
  | symbol (s : Symbol) : IsLexeme s.spelling

def Token.Kind.Admits : Token.Kind → List Char → Prop
  | .number x, s => ∃ l : Literal, l.WellFormed ∧ l.Fits ∧ l.text = s ∧ Binary64.IsNearest l.number x
  | .name, s => IsName s ∨ s = ['π']
  | .symbol x, s => x.spelling = s

namespace Literal

theorem isDigit_of_head {run : List Char} {c : Char} (hrun : ∀ c ∈ run, inRun c)
    (hsep : Radix.decimal.Separated run) (hc : c ∈ run.head?) : c.isDigit := by
  obtain ⟨rest, rfl⟩ := List.head?_eq_some_iff.mp hc
  have hin := hrun c List.mem_cons_self
  simp only [inRun, Bool.or_eq_true, beq_iff_eq] at hin
  rcases hin with hdigit | rfl
  · exact hdigit
  · obtain ⟨⟨d, hd, -⟩, -⟩ := hsep [] rest rfl
    cases hd

theorem WellFormed.beginsAt {l : Literal} {s : List Char} (h : l.WellFormed) (hs : l.text <+: s) :
    beginsAt s := by
  obtain ⟨vs, rfl⟩ := hs
  cases l with
  | based radix marker digits => rfl
  | decimal whole fraction exponent =>
    obtain ⟨hwhole, hfraction, -⟩ := h.scanned
    obtain ⟨hsep, hsepf, -⟩ := h.sound
    obtain ⟨d, hmem, -⟩ := h.hasDigit
    rcases whole with _ | ⟨c, whole⟩
    · rcases fraction with _ | f
      · cases hmem
      · rcases f with _ | ⟨c, f⟩
        · cases hmem
        · have hc := isDigit_of_head (hfraction _ rfl) hsepf rfl
          simp [text, Literal.beginsAt, hc]
    · have hc := isDigit_of_head hwhole hsep rfl
      simp [text, Literal.beginsAt, hc]

theorem wellFormed_scan {c : Char} {rest : List Char} (h : Literal.beginsAt (c :: rest))
    (hs : (scan (c :: rest)).Sound) : (scan (c :: rest)).WellFormed := by
  refine ⟨(scan_scanned _).2, hs, ?_⟩
  rcases hl : scan (c :: rest) with ⟨radix, marker, digits⟩ | ⟨whole, fraction, exponent⟩
  · trivial
  · exact exists_digit_of_scan h hl

end Literal

theorem Symbol.length_spelling (x : Symbol) : x.spelling.length = 1 ∨ x.spelling.length = 2 := by
  cases x <;> decide

theorem Symbol.scan?_longest {x : Symbol} {s : List Char} (h : x.spelling <+: s) :
    ∃ y, Symbol.scan? s = some y ∧ x.spelling.length ≤ y.spelling.length := by
  have htake := List.prefix_iff_eq_take.mp h
  have hfound := ofSpelling?_eq_some_iff.mpr htake
  rcases x.length_spelling with hone | htwo
  · rw [hone] at hfound
    rcases hpair : ofSpelling? (s.take 2) with _ | y
    · exact ⟨x, by rw [scan?, hpair, hfound, Option.none_or], le_rfl⟩
    · refine ⟨y, by rw [scan?, hpair, Option.some_or], ?_⟩
      rw [hone]
      exact List.length_pos_of_ne_nil y.spelling_ne_nil
  · rw [htwo] at hfound
    exact ⟨x, by rw [scan?, hfound, Option.some_or], le_rfl⟩

namespace Lexeme

variable {c : Char} {rest : List Char}

theorem not_beginsAt_of_isAlpha (h : c.isAlpha) : Literal.beginsAt (c :: rest) = false := by
  have hdigit : c.isDigit = false := by
    rw [Bool.eq_false_iff]
    intro hd
    simp only [Char.isAlpha, Char.isUpper, Char.isLower, Char.isDigit, Bool.or_eq_true,
      Bool.and_eq_true, decide_eq_true_eq, UInt32.le_iff_toNat_le] at h hd
    change (65 ≤ c.toNat ∧ c.toNat ≤ 90) ∨ 97 ≤ c.toNat ∧ c.toNat ≤ 122 at h
    change 48 ≤ c.toNat ∧ c.toNat ≤ 57 at hd
    omega
  have hpoint : (c == '.') = false := by
    rw [beq_eq_false_iff_ne]
    rintro rfl
    cases h
  rw [Literal.beginsAt, hdigit, hpoint]
  rfl

theorem scan_of_isAlpha (h : c.isAlpha) :
    scan c rest = .token .name (c :: rest.takeWhile Text.continuesName) := by
  rw [scan, if_neg (by simp [not_beginsAt_of_isAlpha h])]
  exact if_pos h

theorem scan_of_symbol {s : Symbol} (h : s.spelling <+: c :: rest) :
    scan c rest = match Symbol.scan? (c :: rest) with
      | some x => .token (.symbol x) x.spelling
      | none => .strayCharacter c := by
  have hc : c ∈ s.spelling.head? := by
    obtain ⟨vs, hvs⟩ := h
    rw [← List.head?_append_of_ne_nil _ s.spelling_ne_nil, hvs]
    rfl
  obtain ⟨hdigit, hpoint, hname, hletter⟩ : c.isDigit = false ∧ (c == '.') = false ∧
      Text.beginsName c = false ∧ isLetterName c = false := by
    cases s <;> cases hc <;> decide
  have hbegins : Literal.beginsAt (c :: rest) = false := by
    rw [Literal.beginsAt, hdigit, hpoint]
    rfl
  rw [scan, hbegins, hname, hletter]
  rfl

theorem token_ne_strayCharacter (kind : Token.Kind) (slice : List Char) (d : Char) :
    Lexeme.token kind slice ≠ .strayCharacter d := by
  intro h
  cases h

theorem scan_longest {p : List Char} (hp : IsLexeme p) (h : p <+: c :: rest) :
    (∀ d, scan c rest ≠ .strayCharacter d) ∧ p.length ≤ (scan c rest).slice.length := by
  cases hp with
  | @number l hl =>
    have hscan : scan c rest = ofLiteral (Literal.scan (c :: rest)) := if_pos (hl.beginsAt h)
    rw [hscan, slice_ofLiteral]
    refine ⟨?_, Literal.scan_longest hl.scanned h⟩
    intro d hd
    unfold ofLiteral at hd
    split at hd <;> cases hd
  | name hname =>
    obtain ⟨d, ds, rfl, halpha, hds⟩ := hname
    obtain ⟨rfl, vs, rfl⟩ := List.cons_prefix_cons.mp h
    rw [scan_of_isAlpha halpha]
    have hrun : ∀ e ∈ ds, Text.continuesName e := by
      intro e he
      simpa [Text.continuesName] using hds e he
    rw [List.takeWhile_append_of_pos hrun]
    refine ⟨token_ne_strayCharacter _ _, Nat.succ_le_succ ?_⟩
    rw [List.length_append]
    exact Nat.le_add_right _ _
  | pi =>
    obtain ⟨rfl, -⟩ := List.cons_prefix_cons.mp h
    have hscan : scan 'π' rest = .token .name ['π'] := rfl
    rw [hscan]
    exact ⟨token_ne_strayCharacter _ _, le_rfl⟩
  | symbol s =>
    obtain ⟨x, hx, hlength⟩ := Symbol.scan?_longest h
    rw [scan_of_symbol h, hx]
    exact ⟨token_ne_strayCharacter _ _, hlength⟩

theorem admits_of_scan {kind : Token.Kind} {slice : List Char} (h : scan c rest = .token kind slice) :
    kind.Admits slice := by
  unfold scan at h
  split at h
  · rename_i hbegins
    unfold ofLiteral at h
    split at h
    · rename_i x hx
      cases h
      obtain ⟨hsound, hfits, hnearest⟩ := Literal.value_eq_ok_iff.mp hx
      exact ⟨_, Literal.wellFormed_scan hbegins hsound, hfits, rfl, hnearest⟩
    · cases h
  · split at h
    · rename_i halpha
      cases h
      refine .inl ⟨c, _, rfl, halpha, ?_⟩
      intro d hd
      simpa [Text.continuesName] using Literal.of_mem_takeWhile hd
    · split at h
      · rename_i hpi
        cases h
        rw [isLetterName, beq_iff_eq] at hpi
        exact .inr (by rw [hpi])
      · split at h
        · cases h
          rfl
        · cases h

theorem items_of_slice {kind : Token.Kind} {slice : List Char} (hc : ¬Text.isBlank c)
    (h : scan c rest = .token kind slice) : Item.scan slice = [.ok ⟨kind, slice, 0⟩] := by
  obtain ⟨us, vs, hslice, rfl⟩ := exists_slice_eq_cons c rest
  have halone : scan c us = scan c (us ++ vs) := by
    have hfits := @scan_of_slice vs [] Text.breaks_nil c us [] hslice
    simpa using hfits
  rw [h] at hslice halone
  obtain rfl : slice = c :: us := hslice
  have hitems := @Item.scanFrom_lexeme c us [] hc (by rw [halone, slice, List.append_nil]) 0
  rw [halone] at hitems
  exact hitems

end Lexeme

theorem tokens_are_longest (text : String) :
    (∀ t, .ok t ∈ tokenize text →
      Item.scan t.slice = [.ok ⟨t.kind, t.slice, 0⟩] ∧ t.kind.Admits t.slice ∧
      ∃ us vs, text.toList = us ++ (t.slice ++ vs) ∧ t.offset = Text.width us ∧
        ∀ p, IsLexeme p → p <+: t.slice ++ vs → p.length ≤ t.slice.length) ∧
    ∀ d span, .error (.strayCharacter d span) ∈ tokenize text →
      ∃ us vs, text.toList = us ++ d :: vs ∧ span = ⟨Text.width us, d.utf8Size⟩ ∧
        ∀ p, IsLexeme p → ¬p <+: d :: vs := by
  have hcut : Cut 0 text.toList (tokenize text) := Item.scanFrom_cut 0 text.toList
  constructor
  · intro t ht
    obtain ⟨us, c, rest, htext, hc, hlocate⟩ := hcut.exists_lexeme ht
    obtain ⟨hscan, hoffset⟩ := Lexeme.locate_eq_ok hlocate.symm
    obtain ⟨vs, hvs⟩ := Lexeme.slice_prefix c rest
    rw [hscan, Lexeme.slice] at hvs
    refine ⟨Lexeme.items_of_slice hc hscan, Lexeme.admits_of_scan hscan, us, vs, ?_, ?_, ?_⟩
    · rw [hvs, htext]
    · rw [hoffset, Nat.zero_add]
    · intro p hp hprefix
      rw [hvs] at hprefix
      have hlength := (Lexeme.scan_longest hp hprefix).2
      rwa [hscan] at hlength
  · intro d span hd
    obtain ⟨us, c, rest, htext, -, hlocate⟩ := hcut.exists_lexeme hd
    rcases hscan : Lexeme.scan c rest with ⟨kind, slice⟩ | ⟨flaw, slice⟩ | stray
    · rw [hscan] at hlocate
      cases hlocate
    · rw [hscan] at hlocate
      cases hlocate
    · obtain ⟨us', vs, hslice, -⟩ := Lexeme.exists_slice_eq_cons c rest
      rw [hscan] at hlocate hslice
      cases hlocate
      cases hslice
      refine ⟨us, rest, htext, by rw [Nat.zero_add], ?_⟩
      intro p hp hprefix
      exact (Lexeme.scan_longest hp hprefix).1 d hscan

theorem tokens_are_longest_before_stray_character :
    let t : Token := ⟨.symbol .lessEqual, ['<', '='], 1⟩
    .ok t ∈ tokenize "E<=π=" ∧ .error (.strayCharacter '=' ⟨5, 1⟩) ∈ tokenize "E<=π=" ∧
    (Item.scan t.slice = [.ok ⟨t.kind, t.slice, 0⟩] ∧ t.kind.Admits t.slice ∧
      ∃ us vs, "E<=π=".toList = us ++ (t.slice ++ vs) ∧ t.offset = Text.width us ∧
        ∀ p, IsLexeme p → p <+: t.slice ++ vs → p.length ≤ t.slice.length) ∧
    ∃ us vs, "E<=π=".toList = us ++ '=' :: vs ∧ (⟨5, 1⟩ : Text.Span) = ⟨Text.width us, '='.utf8Size⟩ ∧
      ∀ p, IsLexeme p → ¬p <+: '=' :: vs := by
  intro t
  have hitems : tokenize "E<=π=" = [.ok ⟨.name, ['E'], 0⟩, .ok t, .ok ⟨.name, ['π'], 3⟩,
      .error (.strayCharacter '=' ⟨5, 1⟩)] := rfl
  have ht : .ok t ∈ tokenize "E<=π=" := by rw [hitems]; simp
  have hstray : .error (.strayCharacter '=' ⟨5, 1⟩) ∈ tokenize "E<=π=" := by rw [hitems]; simp
  obtain ⟨htokens, hstrays⟩ := tokens_are_longest "E<=π="
  exact ⟨ht, hstray, htokens t ht, hstrays _ _ hstray⟩

end Formula
