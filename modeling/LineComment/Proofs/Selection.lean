import LineComment.Scan
import Mathlib.Data.List.Basic

/-! How a selection chooses among lines. There is one choice a line. A range chooses by the number alone and
stays in the phase it is in, so its choices can be read off without a run over the lines. -/

namespace LineComment.Selection

variable (selection : Selection)

theorem chooseFrom_cons (phase : Phase) (line : Nat × List Char) (rest : List (Nat × List Char)) :
    selection.chooseFrom phase (line :: rest) =
      ((selection.choose phase line.1 line.2).1 ::
          (selection.chooseFrom (selection.choose phase line.1 line.2).2 rest).1,
        (selection.chooseFrom (selection.choose phase line.1 line.2).2 rest).2) := rfl

theorem chooseFrom_append (phase : Phase) (front back : List (Nat × List Char)) :
    selection.chooseFrom phase (front ++ back) =
      ((selection.chooseFrom phase front).1 ++
          (selection.chooseFrom (selection.chooseFrom phase front).2 back).1,
        (selection.chooseFrom (selection.chooseFrom phase front).2 back).2) := by
  induction front generalizing phase with
  | nil => rfl
  | cons line front ih => rw [List.cons_append, chooseFrom_cons, ih, chooseFrom_cons, List.cons_append]

theorem length_chooseFrom (phase : Phase) (lines : List (Nat × List Char)) :
    (selection.chooseFrom phase lines).1.length = lines.length := by
  induction lines generalizing phase with
  | nil => rfl
  | cons line rest ih => rw [chooseFrom_cons, List.length_cons, ih, List.length_cons]

theorem length_chooseAll (lines : List (Nat × List Char)) :
    (selection.chooseAll lines).1.length = lines.length :=
  selection.length_chooseFrom .unopened lines

/-- A range chooses the lines whose numbers it contains. -/
theorem chooseFrom_lines (range : LineRange) (phase : Phase) (lines : List (Nat × List Char)) :
    (Selection.lines range).chooseFrom phase lines = (lines.map fun line => range.contains line.1, phase) := by
  induction lines with
  | nil => rfl
  | cons line rest ih => rw [chooseFrom_cons, choose, ih, List.map_cons]

/-- What is wrong with a selection has nothing to do with files. -/
theorem finish_error_ne_io {phase : Phase} {total : Nat} {error : Error}
    (h : selection.finish phase total = .error error) (activity : Activity) (fault : Fault) :
    error ≠ .io activity fault := by
  rintro rfl
  cases selection with
  | lines range =>
      rw [finish] at h
      split_ifs at h
      cases h
  | labels pair => cases phase <;> cases h

/-- All that can be wrong with a selection once the lines are over. -/
theorem finish_error_cases {phase : Phase} {total : Nat} {error : Error}
    (h : selection.finish phase total = .error error) :
    (∃ range, selection = .lines range ∧ error = .rangeOutOfBounds range.last total) ∨
      ∃ pair, selection = .labels pair ∧
        (error = .startLabelNotFound pair.start ∨ error = .endLabelNotFound pair.stop) := by
  cases selection with
  | lines range =>
      rw [finish] at h
      split_ifs at h
      cases h
      exact Or.inl ⟨range, rfl, rfl⟩
  | labels pair =>
      refine Or.inr ⟨pair, rfl, ?_⟩
      cases phase with
      | unopened => exact Or.inl (Except.error.inj h).symm
      | inside => exact Or.inr (Except.error.inj h).symm
      | closed => cases h

end LineComment.Selection
