import Formula.Expr.Eval

namespace Formula

def fault? {α : Type} : Except Fault α → Option Fault
  | .ok _ => none
  | .error f => some f

theorem fault?_eq_some_iff {α : Type} {r : Except Fault α} {f : Fault} :
    fault? r = some f ↔ r = .error f := by
  cases r <;> simp [fault?]

namespace Expr

mutual

def faults : Expr → List Fault
  | number _ => []
  | constant _ _ => []
  | prefixed _ operand => operand.faults
  | binary _ left right => left.faults ++ right.faults
  | factorial operand span =>
    operand.faults ++
      match operand.value with
      | .ok x => (fault? (factorialAt span x)).toList
      | .error _ => []
  | call name function args span =>
    faultsAll args ++
      match valueAll args with
      | .ok xs => (fault? (callAt name function span xs)).toList
      | .error _ => []

def faultsAll : List Expr → List Fault
  | [] => []
  | e :: es => e.faults ++ faultsAll es

end

mutual

theorem descend_eq (work : List Pending) (e : Expr) :
    descend work e = e.value >>= fun x => resume x work := by
  cases e with
  | number x => rw [descend, value]; rfl
  | constant name x => rw [descend, value]; rfl
  | prefixed op operand =>
    rw [descend, value, descend_eq [] operand]
    cases operand.value with
    | error f => rfl
    | ok x => simp only [bind, Except.bind, resume, pure, Except.pure]
  | binary op left right =>
    rw [descend, value, descend_eq _ left]
    cases left.value with
    | error f => rfl
    | ok x =>
      simp only [bind, Except.bind, resume, descend_eq [] right]
      cases right.value with
      | error f => rfl
      | ok y => simp only [pure, Except.pure]
  | factorial operand span =>
    rw [descend, value, descend_eq _ operand]
    cases operand.value with
    | error f => rfl
    | ok x => simp only [bind, Except.bind, resume]
  | call name function args span =>
    rw [descend, value, descendAll_eq args]
    cases valueAll args with
    | error f => rfl
    | ok xs => rfl

theorem descendAll_eq (es : List Expr) : descendAll es = valueAll es := by
  cases es with
  | nil => rw [descendAll, valueAll]
  | cons e es =>
    rw [descendAll, valueAll, descend_eq [] e, descendAll_eq es]
    cases e.value with
    | error f => rfl
    | ok x => simp only [bind, Except.bind, resume]

end

mutual

theorem head?_faults (e : Expr) : e.faults.head? = fault? e.value := by
  cases e with
  | number x => rfl
  | constant name x => rfl
  | prefixed op operand =>
    rw [faults, value, head?_faults operand]
    cases operand.value <;> rfl
  | binary op left right =>
    rw [faults, value, List.head?_append, head?_faults left, head?_faults right]
    cases left.value with
    | error f => rfl
    | ok x => cases right.value <;> rfl
  | factorial operand span =>
    rw [faults, value, List.head?_append, head?_faults operand]
    cases operand.value with
    | error f => rfl
    | ok x => simp [fault?, bind, Except.bind]
  | call name function args span =>
    rw [faults, value, List.head?_append, head?_faultsAll args]
    cases valueAll args with
    | error f => rfl
    | ok xs => simp [fault?, bind, Except.bind]

theorem head?_faultsAll (es : List Expr) : (faultsAll es).head? = fault? (valueAll es) := by
  cases es with
  | nil => rfl
  | cons e es =>
    rw [faultsAll, valueAll, List.head?_append, head?_faults e, head?_faultsAll es]
    cases e.value with
    | error f => rfl
    | ok x => cases valueAll es <;> rfl

end

theorem eval_eq_value (e : Expr) : e.eval = e.value := by
  rw [eval, descend_eq]
  cases e.value with
  | error f => rfl
  | ok x => simp only [bind, Except.bind, resume]

theorem eval_first_fault (e : Expr) :
    e.eval = e.value ∧ ∀ f, e.eval = .error f ↔ e.faults.head? = some f := by
  refine ⟨eval_eq_value e, fun f => ?_⟩
  rw [eval_eq_value, head?_faults, fault?_eq_some_iff]

end Expr

end Formula
