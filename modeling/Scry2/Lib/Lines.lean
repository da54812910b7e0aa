import Mathlib.Data.List.Infix

/-!
# Lines

A stream is cut behind each separator. What follows the last one is a line too, unless it is empty.
-/

namespace Scry2.Lib

variable {α : Type*} [DecidableEq α]

def lines (sep : α) : List α → List (List α)
  | [] => []
  | a :: l =>
    if a = sep then [a] :: lines sep l
    else match lines sep l with
      | [] => [[a]]
      | line :: rest => (a :: line) :: rest

variable {sep : α} {line l : List α}

theorem lines_line (h : sep ∉ line) (l : List α) : lines sep (line ++ sep :: l) = (line ++ [sep]) :: lines sep l := by
  induction line with
  | nil => rw [List.nil_append, lines, if_pos rfl, List.nil_append]
  | cons a line ih =>
    obtain ⟨hne, h⟩ := not_or.mp (mt List.mem_cons.mpr h)
    rw [List.cons_append, lines, if_neg (Ne.symm hne), ih h, List.cons_append]

theorem lines_last (h : sep ∉ line) (hne : line ≠ []) : lines sep line = [line] := by
  induction line with
  | nil => exact absurd rfl hne
  | cons a line ih =>
    obtain ⟨ha, h⟩ := not_or.mp (mt List.mem_cons.mpr h)
    rw [lines, if_neg (Ne.symm ha)]
    cases line with
    | nil => rfl
    | cons b line => rw [ih h (List.cons_ne_nil b line)]

end Scry2.Lib
