import Formula.Proofs.Scanning.Literal
import Formula.Token.Scan

namespace Formula

theorem Symbol.scan?_prefix {s : List Char} {x : Symbol} (h : Symbol.scan? s = some x) :
    x.spelling <+: s := by
  rcases Option.or_eq_some_iff.mp h with htwo | ⟨-, hone⟩
  · rw [Symbol.ofSpelling?_eq_some_iff.mp htwo]
    exact List.take_prefix _ _
  · rw [Symbol.ofSpelling?_eq_some_iff.mp hone]
    exact List.take_prefix _ _

theorem Symbol.spelling_ne_nil (x : Symbol) : x.spelling ≠ [] := by
  cases x <;> decide

namespace Lexeme

theorem slice_ofLiteral (l : Literal) : (ofLiteral l).slice = l.text := by
  unfold ofLiteral
  split <;> rfl

theorem slice_prefix (c : Char) (rest : List Char) : (scan c rest).slice <+: c :: rest := by
  unfold scan
  split
  · rw [slice_ofLiteral]
    exact (Literal.scan_scanned _).1
  · split
    · exact List.cons_prefix_cons.mpr ⟨rfl, List.takeWhile_prefix _⟩
    · split
      · exact List.cons_prefix_cons.mpr ⟨rfl, List.nil_prefix⟩
      · split
        · exact Symbol.scan?_prefix ‹_›
        · exact List.cons_prefix_cons.mpr ⟨rfl, List.nil_prefix⟩

theorem slice_ne_nil (c : Char) (rest : List Char) : (scan c rest).slice ≠ [] := by
  unfold scan
  split
  · rw [slice_ofLiteral]
    exact Literal.text_scan_ne_nil ‹_›
  · split
    · exact nofun
    · split
      · exact nofun
      · split
        · exact Symbol.spelling_ne_nil _
        · exact nofun

theorem exists_slice_eq_cons (c : Char) (rest : List Char) :
    ∃ us vs, (scan c rest).slice = c :: us ∧ rest = us ++ vs := by
  obtain ⟨vs, h⟩ := slice_prefix c rest
  rcases hs : (scan c rest).slice with _ | ⟨d, us⟩
  · exact absurd hs (slice_ne_nil c rest)
  · rw [hs] at h
    injection h with hd hu
    exact ⟨us, vs, by rw [hd], hu.symm⟩

theorem exists_slice_of_append {c : Char} {rest vs : List Char} (h : c :: rest = (scan c rest).slice ++ vs) :
    ∃ us, (scan c rest).slice = c :: us ∧ rest = us ++ vs := by
  obtain ⟨us, ws, hslice, rfl⟩ := exists_slice_eq_cons c rest
  rw [hslice] at h
  injection h with _ htail
  exact ⟨us, hslice, htail⟩

theorem token_cases {c : Char} {rest slice : List Char} {kind : Token.Kind}
    (h : scan c rest = .token kind slice) :
    (Literal.beginsAt (c :: rest) ∧ slice = (Literal.scan (c :: rest)).text) ∨
      (Text.beginsName c ∧ slice = c :: rest.takeWhile Text.continuesName ∧ kind = .name) ∨
      (isLetterName c ∧ slice = [c]) ∨ ∃ s : Symbol, slice = s.spelling := by
  unfold scan at h
  split at h
  · refine .inl ⟨‹_›, ?_⟩
    rw [← slice_ofLiteral, h]
    rfl
  · split at h
    · cases h
      exact .inr (.inl ⟨‹_›, rfl, rfl⟩)
    · split at h
      · cases h
        exact .inr (.inr (.inl ⟨‹_›, rfl⟩))
      · split at h
        · cases h
          exact .inr (.inr (.inr ⟨_, rfl⟩))
        · cases h

theorem slice_of_symbol {c : Char} {rest slice : List Char} {s : Symbol}
    (h : scan c rest = .token (.symbol s) slice) : slice = s.spelling := by
  unfold scan at h
  split at h
  · unfold ofLiteral at h
    split at h <;> cases h
  · split at h
    · cases h
    · split at h
      · cases h
      · split at h
        · cases h
          rfl
        · cases h

end Lexeme

namespace Item

theorem scanFrom_append (us vs : List Char) (offset : Nat) :
    scanFrom offset us.length (us ++ vs) = scanFrom (offset + Text.width us) 0 vs := by
  induction us generalizing offset with
  | nil => rfl
  | cons c us ih =>
    rw [List.cons_append, List.length_cons, scanFrom, ih, Text.width_cons, Nat.add_assoc]

theorem scanFrom_blank {c : Char} (h : Text.isBlank c) (offset : Nat) (rest : List Char) :
    scanFrom offset 0 (c :: rest) = scanFrom (offset + c.utf8Size) 0 rest := by
  rw [scanFrom, if_pos h]

theorem scanFrom_of_blank {s : List Char} (h : ∀ c ∈ s, Text.isBlank c) (offset : Nat) :
    scanFrom offset 0 s = [] := by
  induction s generalizing offset with
  | nil => rfl
  | cons c rest ih =>
    rw [scanFrom_blank (h c List.mem_cons_self)]
    exact ih (fun d hd => h d (List.mem_cons_of_mem _ hd)) _

theorem scanFrom_lexeme {c : Char} {rest vs : List Char} (h : ¬Text.isBlank c)
    (hs : c :: rest = (Lexeme.scan c rest).slice ++ vs) (offset : Nat) :
    scanFrom offset 0 (c :: rest) =
      (Lexeme.scan c rest).locate offset ::
        scanFrom (offset + Text.width (Lexeme.scan c rest).slice) 0 vs := by
  obtain ⟨us, hslice, rfl⟩ := Lexeme.exists_slice_of_append hs
  have htail : (Lexeme.scan c (us ++ vs)).slice.length - 1 = us.length := by rw [hslice]; rfl
  rw [scanFrom, if_neg h]
  simp only
  rw [htail, scanFrom_append, hslice, Text.width_cons, ← Nat.add_assoc]

end Item

end Formula
