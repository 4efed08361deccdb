import Formula.CommandLine.Run

namespace Formula

namespace Text

/-- The lines of a text, each with the line feed that ends it. Only the last one may lack it. -/
inductive SplitsInto : List Char → List (List Char) → Prop where
  | nil : SplitsInto [] []
  | last {line : List Char} (hne : line ≠ []) (hl : '\n' ∉ line) : SplitsInto line [line]
  | more {line rest : List Char} {ls : List (List Char)} (hl : '\n' ∉ line) (h : SplitsInto rest ls) :
      SplitsInto (line ++ '\n' :: rest) ((line ++ ['\n']) :: ls)

structure Trimmed (s t : List Char) : Prop where
  exists_ends : ∃ front back, s = front ++ t ++ back ∧ (∀ c ∈ front, isBlank c) ∧ ∀ c ∈ back, isBlank c
  head : ∀ c ∈ t.head?, ¬isBlank c
  last : ∀ c ∈ t.getLast?, ¬isBlank c

theorem dropWhile_blank_append {front t : List Char} (hfront : ∀ c ∈ front, isBlank c)
    (ht : ∀ c ∈ t.head?, ¬isBlank c) : (front ++ t).dropWhile isBlank = t := by
  rw [List.dropWhile_append_of_pos hfront]
  cases t with
  | nil => rfl
  | cons c t => exact List.dropWhile_cons_of_neg (ht c rfl)

theorem not_isBlank_of_head_dropWhile {s : List Char} :
    ∀ c ∈ (s.dropWhile isBlank).head?, ¬isBlank c := by
  intro c hc
  have hhead := List.head?_dropWhile_not isBlank s
  rw [Option.mem_def.mp hc] at hhead
  simpa using hhead

theorem trimmed_trim (s : List Char) : Trimmed s (trim s) := by
  have hfront : s.takeWhile isBlank ++ s.dropWhile isBlank = s := List.takeWhile_append_dropWhile
  have hback : trim s ++ ((s.dropWhile isBlank).reverse.takeWhile isBlank).reverse = s.dropWhile isBlank := by
    rw [trim, ← List.reverse_append, List.takeWhile_append_dropWhile, List.reverse_reverse]
  refine ⟨⟨_, _, by rw [List.append_assoc, hback, hfront], ?_, ?_⟩, ?_, ?_⟩
  · exact fun c hc => List.all_eq_true.mp List.all_takeWhile c hc
  · intro c hc
    exact List.all_eq_true.mp List.all_takeWhile c (List.mem_reverse.mp hc)
  · intro c hc
    apply not_isBlank_of_head_dropWhile (s := s)
    rw [← hback, List.head?_append, Option.mem_def.mp hc]
    rfl
  · intro c hc
    rw [trim, List.getLast?_reverse] at hc
    exact not_isBlank_of_head_dropWhile c hc

theorem Trimmed.trim_eq {s t : List Char} (h : Trimmed s t) : trim s = t := by
  obtain ⟨⟨front, back, rfl, hfront, hback⟩, hhead, hlast⟩ := h
  rcases ht : t with _ | ⟨c, rest⟩
  · have hall : ∀ c ∈ front ++ back, isBlank c := fun c hc =>
      (List.mem_append.mp hc).elim (hfront c) (hback c)
    have hnone := @dropWhile_blank_append (front ++ back) [] hall (by rintro c ⟨⟩)
    rw [List.append_nil] at hnone
    rw [trim, List.append_nil, hnone]
    rfl
  · have hne : ∀ d ∈ (t ++ back).head?, ¬isBlank d := by
      intro d hd
      apply hhead
      rwa [ht] at hd ⊢
    have hlast' : ∀ d ∈ t.reverse.head?, ¬isBlank d := by rwa [List.head?_reverse]
    have hback' : ∀ d ∈ back.reverse, isBlank d := fun d hd => hback d (List.mem_reverse.mp hd)
    rw [← ht, trim, List.append_assoc, dropWhile_blank_append hfront hne, List.reverse_append,
      dropWhile_blank_append hback' hlast', List.reverse_reverse]

theorem trimmed_iff {s t : List Char} : Trimmed s t ↔ t = trim s :=
  ⟨fun h => h.trim_eq.symm, fun h => h ▸ trimmed_trim s⟩

theorem trim_append_blank {c : Char} (h : isBlank c) (s : List Char) : trim (s ++ [c]) = trim s := by
  obtain ⟨⟨front, back, hs, hfront, hback⟩, hhead, hlast⟩ := trimmed_trim s
  refine Trimmed.trim_eq ⟨⟨front, back ++ [c], ?_, hfront, ?_⟩, hhead, hlast⟩
  · rw [← List.append_assoc, ← hs]
  · intro d hd
    rcases List.mem_append.mp hd with hd | hd
    · exact hback d hd
    · rwa [List.mem_singleton.mp hd]

theorem lines_append {line : List Char} (h : '\n' ∉ line) (rest : List Char) :
    lines (line ++ '\n' :: rest) = line :: lines rest := by
  induction line with
  | nil => exact if_pos rfl
  | cons c line ih =>
    obtain ⟨hc, hline⟩ := List.ne_and_not_mem_of_not_mem_cons h
    rw [List.cons_append, lines, if_neg hc.symm, ih hline]

theorem lines_of_last {line : List Char} (hne : line ≠ []) (h : '\n' ∉ line) : lines line = [line] := by
  induction line with
  | nil => exact absurd rfl hne
  | cons c line ih =>
    obtain ⟨hc, hline⟩ := List.ne_and_not_mem_of_not_mem_cons h
    rw [lines, if_neg hc.symm]
    cases line with
    | nil => rfl
    | cons d line => rw [ih (List.cons_ne_nil d line) hline]

namespace SplitsInto

variable {s : List Char} {ls ls' before after : List (List Char)}

theorem map_trim (h : SplitsInto s ls) : ls.map trim = (lines s).map trim := by
  induction h with
  | nil => rfl
  | last hne hl => rw [lines_of_last hne hl]
  | more hl h ih => rw [lines_append hl, List.map_cons, List.map_cons, trim_append_blank (by decide), ih]

theorem flatten_eq (h : SplitsInto s ls) : ls.flatten = s := by
  induction h with
  | nil => rfl
  | last hne hl => exact List.append_nil _
  | more hl h ih => rw [List.flatten_cons, ih, List.append_assoc, List.singleton_append]

theorem unique (h : SplitsInto s ls) (h' : SplitsInto s ls') : ls = ls' := by
  induction h generalizing ls' with
  | nil =>
    generalize hs : ([] : List Char) = s at h'
    cases h' with
    | nil => rfl
    | last hne hl => exact absurd hs.symm hne
    | more hl h => simp at hs
  | @last line hne hl =>
    cases h' with
    | nil => exact absurd rfl hne
    | last _ _ => rfl
    | more _ h => simp at hl
  | @more line rest ls hl h ih =>
    generalize hs : line ++ '\n' :: rest = s at h'
    cases h' with
    | nil => simp at hs
    | last hne hl' => simp [← hs] at hl'
    | more hl' h' =>
      -- Both texts have the same first line, so also the same rest.
      have hlines := congrArg lines hs
      rw [lines_append hl, lines_append hl'] at hlines
      obtain ⟨rfl, -⟩ := List.cons.inj hlines
      obtain ⟨-, rfl⟩ := List.cons.inj (List.append_cancel_left hs)
      rw [ih h']

theorem behind (h : SplitsInto s (before ++ after)) : SplitsInto after.flatten after := by
  induction before generalizing s with
  | nil => exact h.flatten_eq.symm ▸ h
  | cons line before ih =>
    generalize hls : line :: before ++ after = ls at h
    cases h with
    | nil => cases hls
    | last hne hl =>
      have hnil : before ++ after = [] := (List.cons.inj hls).2
      exact ih (hnil ▸ SplitsInto.nil)
    | more hl h => exact ih ((List.cons.inj hls).2 ▸ h)

end SplitsInto

theorem exists_splitsInto (s : List Char) : ∃ ls, SplitsInto s ls := by
  by_cases hs : '\n' ∈ s
  · obtain ⟨line, rest, heq, hl⟩ := List.eq_append_cons_of_mem hs
    have hshort : rest.length < s.length := by
      rw [heq, List.length_append, List.length_cons]
      omega
    obtain ⟨ls, h⟩ := exists_splitsInto rest
    exact ⟨_, heq ▸ SplitsInto.more hl h⟩
  · rcases s with _ | ⟨c, rest⟩
    · exact ⟨[], .nil⟩
    · exact ⟨[c :: rest], .last (List.cons_ne_nil c rest) hs⟩
termination_by s.length

end Text

namespace CommandLine

def asksToStop (line : List Char) : Bool := (Text.trim line).map Char.toLower == "exit".toList

/-- The lines of which a session takes notice. -/
def heard (ls : List (List Char)) : List (List Char) :=
  ls.takeWhile (!asksToStop ·) ++ (ls.dropWhile (!asksToStop ·)).take 1

def shown (limits : Limits) (line : List Char) : String :=
  if (Text.trim line).isEmpty || asksToStop line then ""
  else
    match evaluate limits (String.ofList (Text.trim line)) with
    | .ok x => Layout.plain.text x ++ "\n"
    | .error _ => ""

def exchange (limits : Limits) (ls : List (List Char)) : String :=
  String.join (ls.map fun line => prompt ++ shown limits line)

variable {limits : Limits} {line : List Char} {ls ls' before after : List (List Char)}

theorem heard_cons (h : asksToStop line = false) : heard (line :: ls) = line :: heard ls := by
  simp [heard, h]

theorem heard_stop (h : asksToStop line) : heard (line :: ls) = [line] := by
  simp [heard, h]

theorem ofLine_stops (limits : Limits) (line : List Char) :
    (Response.ofLine limits line).stops = asksToStop line := by
  unfold Response.ofLine asksToStop
  by_cases hblank : (Text.trim line).isEmpty
  · rw [if_pos hblank, List.isEmpty_iff.mp hblank]
    rfl
  · rw [if_neg hblank]
    by_cases hexit : (Text.trim line).map Char.toLower = "exit".toList
    · rw [if_pos hexit, beq_iff_eq.mpr hexit, Response.stops]
    · rw [if_neg hexit, beq_eq_false_iff_ne.mpr hexit]
      cases evaluate limits (String.ofList (Text.trim line)) <;> rfl

theorem ofLine_output (limits : Limits) (line : List Char) :
    (Response.ofLine limits line).outcome.output = shown limits line := by
  unfold Response.ofLine shown asksToStop
  by_cases hblank : (Text.trim line).isEmpty
  · rw [if_pos hblank, hblank, Bool.true_or, if_pos rfl, Response.outcome]
  · rw [if_neg hblank, Bool.eq_false_iff.mpr hblank, Bool.false_or]
    by_cases hexit : (Text.trim line).map Char.toLower = "exit".toList
    · rw [if_pos hexit, if_pos (beq_iff_eq.mpr hexit), Response.outcome]
    · rw [if_neg hexit, if_neg (mt beq_iff_eq.mp hexit)]
      cases evaluate limits (String.ofList (Text.trim line)) <;> rfl

theorem ofLine_congr {line line' : List Char} (h : Text.trim line = Text.trim line') :
    Response.ofLine limits line = Response.ofLine limits line' := by
  unfold Response.ofLine
  rw [h]

theorem session_congr (h : ls.map Text.trim = ls'.map Text.trim) :
    session limits ls = session limits ls' := by
  induction ls generalizing ls' with
  | nil => rw [List.map_eq_nil_iff.mp h.symm]
  | cons line ls ih =>
    obtain ⟨line', rest, rfl, hline, hls⟩ := List.map_eq_cons_iff.mp h.symm
    rw [session, session, turn, turn, ofLine_congr hline, ih hls.symm]

theorem exchange_cons (limits : Limits) (line : List Char) (ls : List (List Char)) :
    exchange limits (line :: ls) = prompt ++ shown limits line ++ exchange limits ls := by
  rw [exchange, List.map_cons, String.join_cons, exchange]

theorem session_of_stop (h : asksToStop line) (limits : Limits) (ls : List (List Char)) :
    (session limits (line :: ls)).output = prompt ++ shown limits line := by
  rw [session, turn, ofLine_stops, h]
  exact congrArg (prompt ++ ·) (ofLine_output limits line)

theorem session_of_go (h : asksToStop line = false) (limits : Limits) (ls : List (List Char)) :
    (session limits (line :: ls)).output =
      prompt ++ shown limits line ++ (session limits ls).output := by
  rw [session, turn, ofLine_stops, h]
  exact congrArg (prompt ++ · ++ _) (ofLine_output limits line)

theorem session_output (limits : Limits) (ls : List (List Char)) :
    (session limits ls).output =
      exchange limits (heard ls) ++ if ls.any asksToStop then "" else prompt := by
  induction ls with
  | nil => rfl
  | cons line ls ih =>
    rw [List.any_cons]
    by_cases h : asksToStop line
    · rw [session_of_stop h, heard_stop h, exchange_cons, h, Bool.true_or, if_pos rfl]
      simp only [exchange, List.map_nil, String.join_nil, String.append_empty]
    · rw [Bool.not_eq_true] at h
      rw [session_of_go h, heard_cons h, exchange_cons, h, Bool.false_or, ih]
      simp only [String.append_assoc]

theorem session_append (h : before.any asksToStop = false) (limits : Limits) (after : List (List Char)) :
    (session limits (before ++ after)).output =
      exchange limits before ++ (session limits after).output := by
  induction before with
  | nil => exact String.empty_append.symm
  | cons line before ih =>
    rw [List.any_cons, Bool.or_eq_false_iff] at h
    rw [List.cons_append, session_of_go h.1, ih h.2, exchange_cons]
    simp only [String.append_assoc]

theorem response_status (r : Response) : r.outcome.status = 0 := by
  cases r <;> rfl

theorem session_status (limits : Limits) (ls : List (List Char)) : (session limits ls).status = 0 := by
  induction ls with
  | nil => rfl
  | cons line ls ih =>
    rw [session, turn]
    cases (Response.ofLine limits line).stops
    · exact ih
    · exact response_status _

theorem outcome_session (limits : Limits) {input : String} (h : Text.SplitsInto input.toList ls) :
    (Request.run limits .session).outcome input = session limits ls :=
  session_congr h.map_trim.symm

end CommandLine

open CommandLine in
theorem session_prints_line_by_line (limits : Limits) (input : String) :
    ∃ ls, (∀ ls', Text.SplitsInto input.toList ls' ↔ ls' = ls) ∧
      (∀ line ∈ ls, ∀ text, Text.Trimmed line text ↔ text = Text.trim line) ∧
      ((Request.run limits .session).outcome input).output =
        String.join ((heard ls).map fun line => prompt ++ shown limits line) ++
          (if ls.any asksToStop then "" else prompt) ∧
      ((Request.run limits .session).outcome input).status = 0 ∧
      ∀ before after, ls = before ++ after → before.any asksToStop = false →
        ((Request.run limits .session).outcome input).output =
          String.join (before.map fun line => prompt ++ shown limits line) ++
            ((Request.run limits .session).outcome (String.ofList after.flatten)).output := by
  obtain ⟨ls, h⟩ := Text.exists_splitsInto input.toList
  refine ⟨ls, fun ls' => ⟨fun h' => h'.unique h, fun heq => heq ▸ h⟩, fun _ _ _ => Text.trimmed_iff, ?_⟩
  rw [outcome_session limits h]
  refine ⟨session_output limits ls, session_status limits ls, ?_⟩
  rintro before after rfl hgo
  have hafter : Text.SplitsInto (String.ofList after.flatten).toList after :=
    (String.toList_ofList).symm ▸ h.behind
  rw [outcome_session limits hafter]
  exact session_append hgo limits after

end Formula
