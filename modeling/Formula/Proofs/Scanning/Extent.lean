import Formula.Proofs.Scanning.Lexeme

/-!
A lexeme depends on nothing behind itself but the question whether it goes on. So it is the same where
the text is cut off behind it or behind a later place, and where a blank or a closing bracket comes there.
-/

namespace Formula

namespace Text

def endsLexeme (c : Char) : Bool := isBlank c || c == ')'

def Breaks (s : List Char) : Prop := ∀ c ∈ s.head?, endsLexeme c

theorem breaks_nil : Breaks [] := nofun

theorem breaks_cons {c : Char} {s : List Char} (h : endsLexeme c) : Breaks (c :: s) := by
  rintro d ⟨⟩
  exact h

theorem endsLexeme_of_isBlank {c : Char} (h : isBlank c) : endsLexeme c :=
  (Bool.or_eq_true _ _).mpr (.inl h)

theorem isBlank_iff {c : Char} : isBlank c ↔ ∃ r ∈ blankRanges, r.1 ≤ c.toNat ∧ c.toNat ≤ r.2 := by
  simp [isBlank]

theorem ne_of_endsLexeme {c d : Char} (h : endsLexeme c) (hd : endsLexeme d = false) : c ≠ d := by
  rintro rfl
  exact Bool.false_ne_true (hd.symm.trans h)

theorem continuesName_of_isBlank {c : Char} (h : isBlank c) : continuesName c = false := by
  rw [Bool.eq_false_iff]
  intro hc
  change ((((decide (65 ≤ c.val ∧ c.val ≤ 90) || (97 ≤ c.val && c.val ≤ 122)) ||
    (48 ≤ c.val && c.val ≤ 57)) || c == '_') = true) at hc
  simp only [Bool.or_eq_true, Bool.and_eq_true, decide_eq_true_eq, beq_iff_eq,
    UInt32.le_iff_toNat_le] at hc
  change ((((65 ≤ c.toNat ∧ c.toNat ≤ 90) ∨ 97 ≤ c.toNat ∧ c.toNat ≤ 122) ∨
    48 ≤ c.toNat ∧ c.toNat ≤ 57) ∨ c = '_') at hc
  rcases hc with hc | rfl
  · obtain ⟨r, hr, hlow, hhigh⟩ := isBlank_iff.mp h
    have hranges : ∀ r ∈ blankRanges, r.2 < 48 ∨ 122 < r.1 := by decide
    rcases hranges r hr with hr | hr <;> omega
  · exact absurd h (by decide)

theorem continuesName_of_endsLexeme {c : Char} (h : endsLexeme c) : continuesName c = false := by
  rcases (Bool.or_eq_true _ _).mp h with hblank | hclose
  · exact continuesName_of_isBlank hblank
  · rw [eq_of_beq hclose]
    decide

theorem isDigit_of_endsLexeme {c : Char} (h : endsLexeme c) : c.isDigit = false := by
  have hname := continuesName_of_endsLexeme h
  simp only [continuesName, Char.isAlphanum, Bool.or_eq_false_iff] at hname
  exact hname.1.2

theorem inRun_of_endsLexeme {c : Char} (h : endsLexeme c) : Literal.inRun c = false := by
  have hname := continuesName_of_endsLexeme h
  simp only [continuesName, Char.isAlphanum, Bool.or_eq_false_iff] at hname
  rw [Literal.inRun, hname.1.2, hname.2]
  rfl

end Text

section

variable {p : Char → Bool} {u g g' : List Char}

theorem takeWhile_fits (hp : ∀ c, Text.endsLexeme c → p c = false) (hg : Text.Breaks g')
    (h : ((u ++ g).takeWhile p).length ≤ u.length) :
    (u ++ g').takeWhile p = (u ++ g).takeWhile p ∧
      ∃ v, u = (u ++ g).takeWhile p ++ v ∧ (u ++ g).dropWhile p = v ++ g ∧
        (u ++ g').dropWhile p = v ++ g' := by
  induction u with
  | nil =>
    have hnil : g.takeWhile p = [] := List.eq_nil_of_length_eq_zero (Nat.le_zero.mp h)
    have hdrop : g.dropWhile p = g := by
      conv => rhs; rw [← List.takeWhile_append_dropWhile (p := p) (l := g), hnil]
      rfl
    have hbreak : g'.takeWhile p = [] ∧ g'.dropWhile p = g' := by
      rcases g' with _ | ⟨w, rest⟩
      · exact ⟨rfl, rfl⟩
      · have hw := hp w (hg w rfl)
        exact ⟨by rw [List.takeWhile_cons, hw]; rfl, by rw [List.dropWhile_cons, hw]; rfl⟩
    exact ⟨by rw [List.nil_append, List.nil_append, hbreak.1, hnil], [], by simp [hnil], hdrop, hbreak.2⟩
  | cons c u ih =>
    by_cases hc : p c
    · simp only [List.cons_append, List.takeWhile_cons_of_pos hc, List.dropWhile_cons_of_pos hc] at h ⊢
      obtain ⟨htake, v, hv, hdrop, hdrop'⟩ := ih (Nat.le_of_succ_le_succ h)
      exact ⟨by rw [htake], v, congrArg (c :: ·) hv, hdrop, hdrop'⟩
    · simp only [List.cons_append, List.takeWhile_cons_of_neg hc, List.dropWhile_cons_of_neg hc]
      exact ⟨trivial, c :: u, rfl, rfl, rfl⟩

end

namespace Literal

def exponentOf (c : Char) (sign : Option Char) (digits : List Char) : Option Exponent :=
  if (c = 'e' || c = 'E') && digits.head?.any Char.isDigit then some ⟨c, sign, digits.takeWhile inRun⟩
  else none

theorem scanExponent_cons (c : Char) (rest : List Char) :
    scanExponent (c :: rest) = exponentOf c (splitSign rest).1 (splitSign rest).2 := rfl

theorem exponentOf_eq_some {c : Char} {sign : Option Char} {digits : List Char} {e : Exponent}
    (h : exponentOf c sign digits = some e) :
    e = ⟨c, sign, digits.takeWhile inRun⟩ ∧ digits.head?.any Char.isDigit := by
  unfold exponentOf at h
  split at h
  · rename_i hcond
    exact ⟨(Option.some.inj h).symm, ((Bool.and_eq_true _ _).mp hcond).2⟩
  · cases h

theorem exponent_length {s : List Char} {e : Exponent} (h : scanExponent s = some e) : 2 ≤ e.text.length := by
  obtain ⟨d, ds, hd, -⟩ := (scanExponent_scanned h).2.digits
  simp only [Exponent.text, hd, List.length_append, List.length_cons]
  omega

def decimalFrom (whole : List Char) : List Char → Literal
  | [] => .decimal whole none none
  | c :: rest =>
    if c = '.' then
      .decimal whole (some (rest.takeWhile inRun)) (scanExponent (rest.dropWhile inRun))
    else .decimal whole none (scanExponent (c :: rest))

theorem scanDecimal_eq (s : List Char) : scanDecimal s = decimalFrom (s.takeWhile inRun) (s.dropWhile inRun) := by
  unfold scanDecimal
  cases s.dropWhile inRun <;> rfl

theorem decimalFrom_of_ne {whole s : List Char} (h : s.head? ≠ some '.') :
    decimalFrom whole s = .decimal whole none (scanExponent s) := by
  rcases s with _ | ⟨c, rest⟩
  · rfl
  · exact if_neg fun hc => h (congrArg some hc)

theorem length_text_some (whole f : List Char) (e : Option Exponent) :
    (decimal whole (some f) e).text.length = whole.length + (f.length + 1) + (e.map (·.text.length)).getD 0 := by
  cases e with
  | none => simp [text]
  | some e =>
    simp [text]
    omega

theorem length_text_none (whole : List Char) (e : Option Exponent) :
    (decimal whole none e).text.length = whole.length + (e.map (·.text.length)).getD 0 := by
  cases e <;> simp [text]

theorem length_le_decimalFrom (whole s : List Char) : whole.length ≤ (decimalFrom whole s).text.length := by
  cases s with
  | nil => rw [decimalFrom, length_text_none]; omega
  | cons c rest =>
    rw [decimalFrom]
    split
    · rw [length_text_some]; omega
    · rw [length_text_none]; omega

def radixAt? (c : Char) (s : List Char) : Option Radix :=
  if c = '0' then s.head?.bind radixOfMarker? else none

theorem radixAt?_eq_some {c : Char} {s : List Char} {radix : Radix} (h : radixAt? c s = some radix) :
    c = '0' ∧ ∃ marker rest, s = marker :: rest ∧ radixOfMarker? marker = some radix := by
  unfold radixAt? at h
  split at h
  · rcases s with _ | ⟨marker, rest⟩
    · cases h
    · exact ⟨‹_›, marker, rest, rfl, h⟩
  · cases h

theorem scan_of_radix {c marker : Char} {radix : Radix} {rest : List Char}
    (h : radixAt? c (marker :: rest) = some radix) :
    scan (c :: marker :: rest) = .based radix marker (rest.takeWhile Text.continuesName) := by
  unfold scan
  have hm : (if c = '0' then radixOfMarker? marker else none) = some radix := h
  simp only [hm]

theorem scan_of_none {c : Char} {rest : List Char} (h : radixAt? c rest = none) :
    scan (c :: rest) = scanDecimal (c :: rest) := by
  rcases rest with _ | ⟨marker, rest⟩
  · rfl
  · unfold scan
    have hm : (if c = '0' then radixOfMarker? marker else none) = none := h
    simp only [hm]

variable {u g g' : List Char} (hg : Text.Breaks g')

include hg

theorem digits_fit (h : (u ++ g).head?.any Char.isDigit → ((u ++ g).takeWhile inRun).length ≤ u.length) :
    (u ++ g').head?.any Char.isDigit = (u ++ g).head?.any Char.isDigit ∧
      ((u ++ g).head?.any Char.isDigit → (u ++ g').takeWhile inRun = (u ++ g).takeWhile inRun) := by
  rcases u with _ | ⟨c, u⟩
  · have hno : (([] : List Char) ++ g).head?.any Char.isDigit = false := by
      rw [Bool.eq_false_iff]
      intro hdigit
      obtain ⟨d, ds, hd⟩ := exists_cons_of_head? hdigit
      have hlength := h hdigit
      rw [hd] at hdigit hlength
      rw [List.takeWhile_cons_of_pos (inRun_of_isDigit hdigit)] at hlength
      cases hlength
    rw [hno]
    refine ⟨?_, nofun⟩
    rcases g' with _ | ⟨w, rest⟩
    · rfl
    · exact Text.isDigit_of_endsLexeme (hg w rfl)
  · exact ⟨rfl, fun hdigit => (takeWhile_fits (fun c => Text.inRun_of_endsLexeme) hg (h hdigit)).1⟩

theorem exponentOf_fits {c : Char} {sign : Option Char}
    (h : ∀ e, exponentOf c sign (u ++ g) = some e → e.digits.length ≤ u.length) :
    exponentOf c sign (u ++ g') = exponentOf c sign (u ++ g) := by
  unfold exponentOf at h ⊢
  by_cases hc : c = 'e' || c = 'E'
  · simp only [hc, Bool.true_and] at h ⊢
    obtain ⟨hhead, hrun⟩ := digits_fit hg fun hdigit => h _ (if_pos hdigit)
    rw [hhead]
    by_cases hdigit : (u ++ g).head?.any Char.isDigit
    · rw [if_pos hdigit, if_pos hdigit, hrun hdigit]
    · rw [if_neg hdigit, if_neg hdigit]
  · rw [Bool.eq_false_iff.mpr hc]
    rfl

theorem exponentOf_of_breaks (c : Char) (sign : Option Char) : exponentOf c sign g' = none := by
  refine Option.eq_none_iff_forall_ne_some.mpr fun e he => ?_
  obtain ⟨w, rest, rfl⟩ := exists_cons_of_head? (exponentOf_eq_some he).2
  have hdigit : w.isDigit := (exponentOf_eq_some he).2
  rw [Text.isDigit_of_endsLexeme (hg w rfl)] at hdigit
  cases hdigit

theorem splitSign_of_breaks : splitSign g' = (none, g') := by
  rcases g' with _ | ⟨w, rest⟩
  · rfl
  · have hends : Text.endsLexeme w := hg w rfl
    simp (disch := decide) [splitSign, Text.ne_of_endsLexeme hends]

theorem scanExponent_of_breaks : scanExponent g' = none := by
  rcases g' with _ | ⟨w, rest⟩
  · rfl
  · refine Option.eq_none_iff_forall_ne_some.mpr fun e he => ?_
    have hends : Text.endsLexeme w := hg w rfl
    obtain ⟨htext, hscanned⟩ := scanExponent_scanned he
    obtain ⟨hmarker, -⟩ := List.cons_prefix_cons.mp htext
    have hw := hscanned.marker
    rw [hmarker] at hw
    rcases hw with rfl | rfl <;> cases hends

theorem scanExponent_fits (h : ((scanExponent (u ++ g)).map (·.text.length)).getD 0 ≤ u.length) :
    scanExponent (u ++ g') = scanExponent (u ++ g) := by
  replace h : ∀ e, scanExponent (u ++ g) = some e → e.text.length ≤ u.length := by
    intro e he
    rwa [he] at h
  have hnone (hu : u.length < 2) : scanExponent (u ++ g) = none :=
    Option.eq_none_iff_forall_ne_some.mpr fun e he => absurd (h e he) (by have := exponent_length he; omega)
  match u with
  | [] => rw [hnone Nat.two_pos, List.nil_append, scanExponent_of_breaks hg]
  | [c] =>
    rw [hnone Nat.one_lt_two, List.singleton_append, scanExponent_cons, splitSign_of_breaks hg,
      exponentOf_of_breaks hg]
  | c :: d :: u =>
    by_cases hd : d = '+' || d = '-'
    · have hsplit (s : List Char) : splitSign (d :: s) = (some d, s) := if_pos hd
      simp only [List.cons_append, scanExponent_cons, hsplit] at h ⊢
      refine exponentOf_fits hg fun e he => ?_
      have hlength := h e he
      rw [(exponentOf_eq_some he).1] at hlength ⊢
      simp only [Exponent.text, Option.toList_some, List.length_append, List.length_cons,
        List.length_nil] at hlength ⊢
      omega
    · have hsplit (s : List Char) : splitSign (d :: s) = (none, d :: s) := if_neg hd
      simp only [List.cons_append, scanExponent_cons, hsplit] at h ⊢
      refine exponentOf_fits (u := d :: u) hg fun e he => ?_
      have hlength := h e he
      rw [(exponentOf_eq_some he).1] at hlength ⊢
      simp only [Exponent.text, Option.toList_none, List.length_append, List.length_cons,
        List.length_nil] at hlength ⊢
      omega

theorem decimalFrom_fits {whole : List Char}
    (h : (decimalFrom whole (u ++ g)).text.length ≤ whole.length + u.length) :
    decimalFrom whole (u ++ g') = decimalFrom whole (u ++ g) := by
  have hpoint' : g'.head? ≠ some '.' := fun he => absurd (hg '.' he) (by decide)
  rcases u with _ | ⟨c, u⟩
  · rw [List.nil_append] at h ⊢
    have hpoint : g.head? ≠ some '.' := by
      intro he
      obtain ⟨rest, rfl⟩ := List.head?_eq_some_iff.mp he
      rw [decimalFrom, if_pos rfl, length_text_some, List.length_nil] at h
      omega
    rw [decimalFrom_of_ne hpoint, length_text_none] at h
    rw [List.nil_append, decimalFrom_of_ne hpoint', decimalFrom_of_ne hpoint]
    have hfits := @scanExponent_fits [] g g' hg (Nat.le_of_add_le_add_left h)
    exact congrArg _ hfits
  · rw [List.cons_append] at h ⊢
    by_cases hc : c = '.'
    · rw [decimalFrom, if_pos hc, length_text_some, List.length_cons] at h
      obtain ⟨htake, v, hv, hdrop, hdrop'⟩ :=
        @takeWhile_fits inRun u g g' (fun c => Text.inRun_of_endsLexeme) hg (by omega)
      have hlength := congrArg List.length hv
      rw [List.length_append] at hlength
      rw [List.cons_append, decimalFrom, decimalFrom, if_pos hc, if_pos hc, htake, hdrop, hdrop']
      rw [hdrop] at h
      have hfits := @scanExponent_fits v g g' hg (by omega)
      rw [hfits]
    · rw [decimalFrom, if_neg hc, length_text_none] at h
      rw [List.cons_append, decimalFrom, decimalFrom, if_neg hc, if_neg hc]
      have hfits := @scanExponent_fits (c :: u) g g' hg (Nat.le_of_add_le_add_left h)
      exact congrArg _ hfits

theorem scanDecimal_fits (h : (scanDecimal (u ++ g)).text.length ≤ u.length) :
    scanDecimal (u ++ g') = scanDecimal (u ++ g) := by
  rw [scanDecimal_eq] at h
  have hwhole := length_le_decimalFrom ((u ++ g).takeWhile inRun) ((u ++ g).dropWhile inRun)
  obtain ⟨htake, v, hv, hdrop, hdrop'⟩ :=
    takeWhile_fits (fun c => Text.inRun_of_endsLexeme) hg (Nat.le_trans hwhole h)
  have hlength := congrArg List.length hv
  rw [List.length_append] at hlength
  rw [scanDecimal_eq, scanDecimal_eq, htake, hdrop, hdrop']
  rw [hdrop] at h
  exact decimalFrom_fits hg (by omega)

theorem radixAt?_of_breaks (c : Char) : radixAt? c g' = none := by
  rcases g' with _ | ⟨w, rest⟩
  · simp [radixAt?]
  · have hends : Text.endsLexeme w := hg w rfl
    have hw : radixOfMarker? w = none := by
      unfold radixOfMarker?
      simp (disch := decide) [Text.ne_of_endsLexeme hends]
    simp [radixAt?, hw]

theorem scan_fits {c : Char} (h : (scan (c :: (u ++ g))).text.length ≤ u.length + 1) :
    scan (c :: (u ++ g')) = scan (c :: (u ++ g)) := by
  have hdecimal (hnone : radixAt? c (u ++ g) = none) (hnone' : radixAt? c (u ++ g') = none) :
      scan (c :: (u ++ g')) = scan (c :: (u ++ g)) := by
    rw [scan_of_none hnone] at h ⊢
    rw [scan_of_none hnone']
    exact @scanDecimal_fits (c :: u) g g' hg h
  rcases u with _ | ⟨marker, u⟩
  · refine hdecimal (Option.eq_none_iff_forall_ne_some.mpr fun radix hr => ?_) (radixAt?_of_breaks hg c)
    rcases g with _ | ⟨marker, rest⟩
    · simp [radixAt?] at hr
    · rw [List.nil_append, scan_of_radix hr] at h
      simp [text] at h
  · rcases hr : radixAt? c (marker :: (u ++ g)) with _ | radix
    · exact hdecimal hr hr
    · have hr' : radixAt? c (marker :: (u ++ g')) = some radix := hr
      rw [List.cons_append, scan_of_radix hr] at h
      rw [List.cons_append, List.cons_append, scan_of_radix hr, scan_of_radix hr']
      have hrun : ((u ++ g).takeWhile Text.continuesName).length ≤ u.length := by
        simp only [text, List.length_cons] at h
        omega
      rw [(takeWhile_fits (fun c => Text.continuesName_of_endsLexeme) hg hrun).1]

end Literal

namespace Symbol

variable {u g g' : List Char} (hg : Text.Breaks g')

theorem length_spelling_of_pair {c d : Char} {x : Symbol} (h : ofSpelling? [c, d] = some x) :
    x.spelling.length = 2 := by
  rw [ofSpelling?_eq_some_iff.mp h]
  rfl

theorem endsLexeme_of_pair {c d : Char} {x : Symbol} (h : ofSpelling? [c, d] = some x) :
    Text.endsLexeme d = false := by
  have hall : x.spelling.tail.all (fun c => !Text.endsLexeme c) := by cases x <;> decide
  rw [ofSpelling?_eq_some_iff.mp h] at hall
  simpa using hall

include hg

theorem scan?_fits {c : Char} (h : ∀ x, scan? (c :: (u ++ g)) = some x → x.spelling.length ≤ u.length + 1) :
    scan? (c :: (u ++ g')) = scan? (c :: (u ++ g)) := by
  rcases u with _ | ⟨d, u⟩
  · have hone : ∀ s : List Char, (∀ d ∈ s.head?, ofSpelling? [c, d] = none) →
        scan? (c :: s) = ofSpelling? [c] := by
      intro s hs
      rcases s with _ | ⟨d, rest⟩
      · simp [scan?]
      · have hnone := hs d rfl
        simp [scan?, hnone]
    rw [List.nil_append, List.nil_append, hone g', hone g]
    · intro d hd
      refine Option.eq_none_iff_forall_ne_some.mpr fun x hx => ?_
      obtain ⟨rest, rfl⟩ := List.head?_eq_some_iff.mp hd
      have hlength := h x (by simp [scan?, hx])
      rw [length_spelling_of_pair hx] at hlength
      cases Nat.le_of_succ_le_succ hlength
    · intro d hd
      refine Option.eq_none_iff_forall_ne_some.mpr fun x hx => ?_
      have hends := hg d hd
      rw [endsLexeme_of_pair hx] at hends
      cases hends
  · rfl

end Symbol

namespace Lexeme

variable {u g g' : List Char} (hg : Text.Breaks g')

include hg

theorem beginsAt_fits {c : Char} (h : (scan c (u ++ g)).slice.length ≤ u.length + 1) :
    Literal.beginsAt (c :: (u ++ g')) = Literal.beginsAt (c :: (u ++ g)) := by
  rcases u with _ | ⟨d, u⟩
  · have hno : (c == '.' && g.head?.any Char.isDigit) = false := by
      rw [Bool.eq_false_iff]
      intro hpoint
      obtain ⟨hc, hdigit⟩ := (Bool.and_eq_true _ _).mp hpoint
      obtain rfl := eq_of_beq hc
      obtain ⟨d, rest, rfl⟩ := Literal.exists_cons_of_head? hdigit
      have hbegins : Literal.beginsAt ('.' :: d :: rest) := by rw [Literal.beginsAt, hpoint, Bool.or_true]
      rw [List.nil_append, scan, if_pos hbegins, slice_ofLiteral] at h
      rw [Literal.scan_of_none (by simp [Literal.radixAt?]), Literal.scanDecimal_eq,
        List.dropWhile_cons_of_neg (by decide), Literal.decimalFrom, if_pos rfl, Literal.length_text_some,
        List.takeWhile_cons_of_pos (Literal.inRun_of_isDigit hdigit), List.length_cons] at h
      simp only [List.length_nil] at h
      omega
    have hno' : (c == '.' && g'.head?.any Char.isDigit) = false := by
      rcases g' with _ | ⟨w, rest⟩
      · simp
      · simp [Text.isDigit_of_endsLexeme (hg w rfl)]
    rw [List.nil_append, List.nil_append, Literal.beginsAt, Literal.beginsAt, hno, hno']
  · rfl

theorem scan_fits {c : Char} (h : (scan c (u ++ g)).slice.length ≤ u.length + 1) :
    scan c (u ++ g') = scan c (u ++ g) := by
  have hbegins := beginsAt_fits hg h
  unfold scan at h ⊢
  rw [hbegins]
  by_cases hl : Literal.beginsAt (c :: (u ++ g))
  · rw [if_pos hl, slice_ofLiteral] at h
    rw [if_pos hl, if_pos hl, Literal.scan_fits hg h]
  · rw [if_neg hl] at h ⊢
    rw [if_neg hl]
    by_cases hn : Text.beginsName c
    · rw [if_pos hn] at h
      have hrun : ((u ++ g).takeWhile Text.continuesName).length ≤ u.length := Nat.le_of_succ_le_succ h
      rw [if_pos hn, if_pos hn, (takeWhile_fits (fun c => Text.continuesName_of_endsLexeme) hg hrun).1]
    · rw [if_neg hn] at h ⊢
      rw [if_neg hn]
      by_cases hp : isLetterName c
      · rw [if_pos hp, if_pos hp]
      · rw [if_neg hp] at h ⊢
        rw [if_neg hp, Symbol.scan?_fits hg fun x hx => ?_]
        rw [hx] at h
        exact h

theorem scan_of_slice {c : Char} {us more : List Char}
    (h : (scan c (us ++ (more ++ g))).slice = c :: us) :
    scan c (us ++ (more ++ g')) = scan c (us ++ (more ++ g)) := by
  rw [← List.append_assoc] at h
  rw [← List.append_assoc, ← List.append_assoc]
  apply scan_fits hg
  rw [h, List.length_cons, List.length_append]
  omega

end Lexeme

end Formula
