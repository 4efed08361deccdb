import Formula.Evaluate
import Formula.Proofs.Scanning.Cursor

namespace Formula

namespace Cursor

theorem run_append (k : Cursor) (steps more : List Step) :
    k.run (steps ++ more) = k.run steps ++ (k.after steps).run more := by
  induction steps generalizing k with
  | nil => rfl
  | cons step steps ih => rw [List.cons_append, run, run, ih, after_cons, List.cons_append]

theorem run_nexts (k : Cursor) (steps : List Step) :
    ((steps.zip (k.run steps)).filter (·.1 == .next)).map Prod.snd =
      k.run (List.replicate (steps.count .next) .next) := by
  rw [run_next]
  induction steps generalizing k with
  | nil => rfl
  | cons step steps ih =>
    obtain ⟨hanswer, hunread⟩ := k.step_eq step
    cases step with
    | next =>
      rw [List.count_cons_self, List.range_succ_eq_map, List.map_cons, List.map_map, run]
      change (k.step .next).1 :: ((steps.zip ((k.step .next).2.run steps)).filter _).map _ = _
      rw [ih, hanswer, hunread, List.head?_eq_getElem?]
      congr 1
      apply List.map_congr_left
      intro i _
      rw [List.getElem?_drop, Nat.add_comm]
      rfl
    | peek =>
      rw [List.count_cons_of_ne (by decide), run]
      change ((steps.zip ((k.step .peek).2.run steps)).filter _).map _ = _
      rw [ih, hunread]
      rfl

theorem run_peeks (k : Cursor) (n : Nat) (more : List Step) :
    ∃ answers, k.run (List.replicate n .peek ++ .next :: more) =
      List.replicate (n + 1) k.unread.head? ++ answers := by
  induction n generalizing k with
  | zero => exact ⟨k.next.2.run more, congrArg (· :: _) k.next_eq.1⟩
  | succ n ih =>
    obtain ⟨hanswer, hunread⟩ := k.step_eq .peek
    obtain ⟨answers, hrun⟩ := ih (k.step .peek).2
    refine ⟨answers, ?_⟩
    rw [List.replicate_succ, List.cons_append, run, hrun, hanswer, hunread]
    rfl

end Cursor

theorem lookahead_keeps_items (text : String) (steps : List Cursor.Step) :
    (Cursor.ofText text.toList).run steps =
      (List.range steps.length).map (fun i => (tokenize text)[(steps.take i).count .next]?) ∧
    ((steps.zip ((Cursor.ofText text.toList).run steps)).filter (·.1 == .next)).map Prod.snd =
      (Cursor.ofText text.toList).run (List.replicate (steps.count .next) .next) ∧
    (∀ n, (Cursor.ofText text.toList).run (List.replicate n .next) =
      (List.range n).map fun i => (tokenize text)[i]?) ∧
    ∀ peeks more, ∃ answer answers,
      (Cursor.ofText text.toList).run (steps ++ (List.replicate peeks .peek ++ .next :: more)) =
        (Cursor.ofText text.toList).run steps ++ (List.replicate (peeks + 1) answer ++ answers) := by
  refine ⟨Cursor.run_eq _ steps, Cursor.run_nexts _ steps, Cursor.run_next _, fun peeks more => ?_⟩
  obtain ⟨answers, hrun⟩ := ((Cursor.ofText text.toList).after steps).run_peeks peeks more
  exact ⟨_, answers, by rw [Cursor.run_append, hrun]⟩

end Formula
