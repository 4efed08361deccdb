import Formula.Proofs.Parsing.Blame
import Formula.Proofs.Parsing.Locality
import Formula.Proofs.Parsing.Recognition
import Formula.Proofs.Scanning.Slices

namespace Formula

open Parse

/-- The fault is found before the items end. Where it is about a name that is unknown or not called, a
token follows this name. -/
def Fault.Settled (all : List Item) : Fault → Prop
  | .lexical _ => True
  | .syntactic (.unexpectedToken ..) => True
  | .syntactic (.trailingInput ..) => True
  | .syntactic (.constantCalled ..) => True
  | .syntactic (.arityMismatch ..) => True
  | .syntactic (.unknownName _ span) => ∃ t, .ok t ∈ all ∧ span.stop ≤ t.span.offset
  | .syntactic (.functionNotCalled _ span) => ∃ t, .ok t ∈ all ∧ span.stop ≤ t.span.offset
  | _ => False

theorem Item.lead_lt {all : List Item} {f : LexicalFault} (h : .error f ∈ all) : lead all < all.length := by
  induction all with
  | nil => cases h
  | cons x rest ih =>
    rcases x with g | t
    · exact Nat.succ_pos _
    · have hrest : .error f ∈ rest := (List.mem_cons.mp h).resolve_left nofun
      exact Nat.succ_lt_succ (ih hrest)

section

variable {text : String} {left : List Item} {found : String} {span : Text.Span} {u : Token}

theorem ReadBefore.left_ne_nil (h : ReadBefore (tokenize text) left found span)
    (hu : .ok u ∈ tokenize text) (hs : span.stop ≤ u.span.offset) : left ≠ [] := by
  rintro rfl
  obtain ⟨t, ⟨before, hall⟩, -, rfl⟩ := h
  have hcut := Item.scanFrom_cut 0 text.toList
  rw [show Item.scanFrom 0 0 text.toList = _ from hall.symm] at hcut
  have hpos : 0 < t.span.length := hcut.length_pos (List.mem_append_right before (List.mem_singleton_self _))
  rw [← hall] at hu
  rcases List.mem_append.mp hu with hu | hu
  · have hbefore : u.span.stop ≤ t.span.offset :=
      (List.pairwise_append.mp hcut.stop_le_offset).2.2 _ hu _ (List.mem_singleton_self _)
    simp only [Text.Span.stop] at *
    omega
  · cases List.mem_singleton.mp hu
    simp only [Text.Span.stop] at *
    omega

end

variable {m n : Nat} {atEnd : Text.Span} {all : List Item} {f : Fault}

theorem Fault.Settled.not_tellsEnd (h : f.Settled all) : ¬f.TellsEnd := by
  rcases f with f | f | f
  · exact id
  · cases f <;> first | exact id | exact h.elim
  · exact id

theorem Fault.Settled.reach_le {text : String} (h : f.Settled (tokenize text))
    (hr : whole m atEnd (tokenize text) = ⟨.error f, n⟩) :
    f.reach (tokenize text) n ≤ (tokenize text).length := by
  have hblames := whole_reports List.suffix_rfl f n hr
  have hused : n ≤ (tokenize text).length := by
    have hlength := (@whole_local (tokenize text) atEnd m).used_le_length
    rwa [hr] at hlength
  have hbehind (hne : (tokenize text).drop n ≠ []) : n + 1 ≤ (tokenize text).length := by
    rwa [Ne, List.drop_eq_nil_iff, Nat.not_le] at hne
  rcases f with f | f | f
  · exact Item.lead_lt hblames
  · cases f with
    | unexpectedToken | trailingInput | arityMismatch => exact hused
    | constantCalled name span => exact hbehind hblames.2
    | unknownName name span | functionNotCalled name span =>
      obtain ⟨t, ht, hstop⟩ := h
      exact hbehind (ReadBefore.left_ne_nil hblames ht hstop)
    | _ => exact h.elim
  · exact h.elim

theorem Fault.Settled.whole_append (h : f.Settled all) (hr : whole m atEnd all = ⟨.error f, n⟩)
    (hreach : f.reach all n ≤ all.length) (atEnd' : Text.Span) (more : List Item) :
    whole m atEnd' (all ++ more) = ⟨.error f, n⟩ := by
  have hreads := (@whole_local all atEnd m).reads
  rw [hr] at hreads
  have hlonger : whole m atEnd (all ++ more) = ⟨.error f, n⟩ :=
    (hreads _ (List.take_append_of_le_length hreach)).trans hr
  refine (whole_eq_of_ends (fun g k hg => ?_) atEnd').trans hlonger
  cases hlonger.symm.trans hg
  exact h.not_tellsEnd

theorem tokenize_append_blank (text more : String) :
    ∃ behind, tokenize (text ++ " " ++ more) = tokenize text ++ behind := by
  have hblank : Text.Breaks (' ' :: more.toList) := Text.breaks_cons (by decide)
  have hcut := (Item.scanFrom_cut 0 text.toList).append hblank (Item.scanFrom_cut _ _)
  refine ⟨Item.scanFrom (0 + Text.width text.toList) 0 (' ' :: more.toList), ?_⟩
  rw [tokenize, Item.scan, String.toList_append, String.toList_append, List.append_assoc]
  exact hcut.scanFrom_eq

theorem parse_fault_final {limits : Limits} {text more : String} {f : Fault}
    (h : parse limits text = .error f) (hs : f.Settled (tokenize text))
    (hl : Text.width (text ++ " " ++ more).toList ≤ limits.maxLength) :
    parse limits (text ++ " " ++ more) = .error f := by
  have hfits : Text.width text.toList ≤ limits.maxLength := by
    rw [String.toList_append, String.toList_append, Text.width_append, Text.width_append] at hl
    omega
  rw [parse_eq_whole hfits] at h
  rcases hr : whole limits.maxDepth ⟨Text.width text.toList, 0⟩ (tokenize text) with ⟨g | p, n⟩
  · rw [hr] at h
    obtain rfl : g = f := Except.error.inj h
    obtain ⟨behind, hbehind⟩ := tokenize_append_blank text more
    rw [parse_eq_whole hl, hbehind, hs.whole_append hr (hs.reach_le hr)]
    rfl
  · rw [hr] at h
    cases h

theorem parse_fault_final_unknown_name :
    parse {} "x)" = .error (.syntactic (.unknownName "x" ⟨0, 1⟩)) ∧
      parse {} "x) + 1" = .error (.syntactic (.unknownName "x" ⟨0, 1⟩)) := by
  let name : Token := ⟨.name, ['x'], 0⟩
  let close : Token := ⟨.symbol .rightParen, [')'], 1⟩
  have hoperand : operand ⟨2, 0⟩ (phrase 64 ⟨2, 0⟩ 63) [.ok name, .ok close] =
      ⟨.error (.syntactic (.unknownName "x" ⟨0, 1⟩)), 1⟩ := by
    rw [operand_name rfl]
    rfl
  have hwhole : whole 64 ⟨2, 0⟩ [.ok name, .ok close] =
      ⟨.error (.syntactic (.unknownName "x" ⟨0, 1⟩)), 1⟩ :=
    bind_of_error (phrase_of_operand_error hoperand)
  have hl : Text.width "x)".toList ≤ 4096 := by decide
  have hparse : parse {} "x)" = .error (.syntactic (.unknownName "x" ⟨0, 1⟩)) :=
    (parse_eq_whole hl).trans (congrArg (fun r => r.result.map Phrase.expr) hwhole)
  have hbehind : ∃ t, .ok t ∈ tokenize "x)" ∧ 1 ≤ t.span.offset := ⟨close, .tail _ (.head _), by decide⟩
  exact ⟨hparse, @parse_fault_final {} "x)" "+ 1" _ hparse hbehind (by decide)⟩

end Formula
