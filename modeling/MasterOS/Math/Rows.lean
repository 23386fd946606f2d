/-
# Rows of a text

A text is a list of characters and line feeds, a line feed being `none`. Its rows are its
lines cut at a width. A line that fills its last row exactly has no empty row behind it,
and an empty line has one row. What a page of some height shows is the last rows, with a
blank wherever no character is.

The rows are defined on the whole text. The lemmas say what one more character does to
them, which is what a console does.
-/

import Mathlib.Data.List.Basic
import Mathlib.Data.Nat.Basic
import Mathlib.Order.Basic

namespace MasterOS.Math

variable {α : Type}

/-! ## Lines and rows -/

/-- The lines of a text. -/
def cutLines : List (Option α) → List (List α)
  | [] => [[]]
  | none :: text => [] :: cutLines text
  | some c :: text => (cutLines text).modifyHead (c :: ·)

/-- The rows of a line at a width. -/
def wrap (width : ℕ) (line : List α) : List (List α) :=
  if _ : 0 < width ∧ width < line.length then
    line.take width :: wrap width (line.drop width)
  else [line]
termination_by line.length
decreasing_by
  rw [List.length_drop]
  omega

/-- The rows of a text at a width. -/
def rowsOf (width : ℕ) (text : List (Option α)) : List (List α) :=
  (cutLines text).flatMap (wrap width)

/-- The character at a place of a page that shows the last rows. -/
def shown (blank : α) (height : ℕ) (rows : List (List α)) (i j : ℕ) : α :=
  ((rows.drop (rows.length - height))[i]?.getD [])[j]?.getD blank

/-! ## One more character -/

/-- A text has a last line, and one more character goes to its end or starts a new one. -/
theorem exists_cutLines (text : List (Option α)) :
    ∃ above last, cutLines text = above ++ [last] ∧
      cutLines (text ++ [none]) = above ++ [last, []] ∧
      ∀ c, cutLines (text ++ [some c]) = above ++ [last ++ [c]] := by
  induction text with
  | nil => exact ⟨[], [], rfl, rfl, fun _ => rfl⟩
  | cons first rest ih =>
      obtain ⟨above, last, hrest, hfeed, hchar⟩ := ih
      cases first with
      | none =>
          refine ⟨[] :: above, last, ?_, ?_, fun c => ?_⟩
          · rw [cutLines, hrest, List.cons_append]
          · rw [List.cons_append, cutLines, hfeed, List.cons_append]
          · rw [List.cons_append, cutLines, hchar, List.cons_append]
      | some d =>
          cases above with
          | nil =>
              refine ⟨[], d :: last, ?_, ?_, fun c => ?_⟩
              · rw [cutLines, hrest]
                rfl
              · rw [List.cons_append, cutLines, hfeed]
                rfl
              · rw [List.cons_append, cutLines, hchar]
                rfl
          | cons top above =>
              refine ⟨(d :: top) :: above, last, ?_, ?_, fun c => ?_⟩
              · rw [cutLines, hrest]
                rfl
              · rw [List.cons_append, cutLines, hfeed]
                rfl
              · rw [List.cons_append, cutLines, hchar]
                rfl

theorem wrap_of_le {width : ℕ} {line : List α} (h : line.length ≤ width) :
    wrap width line = [line] := by
  rw [wrap, dif_neg]
  omega

theorem wrap_of_lt {width : ℕ} (hwidth : 0 < width) {line : List α} (h : width < line.length) :
    wrap width line = line.take width :: wrap width (line.drop width) := by
  rw [wrap, dif_pos ⟨hwidth, h⟩]

/-- A line has a last row, and one more character goes to its end, or to a new row when it
is full. -/
theorem exists_wrap {width : ℕ} (hwidth : 0 < width) (line : List α) :
    ∃ above last, wrap width line = above ++ [last] ∧ last.length ≤ width ∧
      (last.length < width → ∀ c, wrap width (line ++ [c]) = above ++ [last ++ [c]]) ∧
      (last.length = width → ∀ c, wrap width (line ++ [c]) = above ++ [last, [c]]) := by
  induction h : line.length using Nat.strongRecOn generalizing line with
  | ind n ih =>
    rcases Nat.lt_trichotomy line.length width with hlt | heq | hgt
    · refine ⟨[], line, wrap_of_le hlt.le, hlt.le, fun _ c => ?_, fun hfull => ?_⟩
      · exact wrap_of_le (by rw [List.length_append]; exact hlt)
      · exact absurd hfull hlt.ne
    · refine ⟨[], line, wrap_of_le heq.le, heq.le, fun hroom => ?_, fun _ c => ?_⟩
      · exact absurd heq hroom.ne
      · have hlong : width < (line ++ [c]).length := by
          rw [List.length_append, heq]
          exact Nat.lt_succ_self width
        rw [wrap_of_lt hwidth hlong, List.take_left' heq, List.drop_left' heq,
          @wrap_of_le _ width [c] hwidth]
        rfl
    · -- The rows behind the first one are the rows of a shorter line.
      have hshort : (line.drop width).length < n := by
        rw [List.length_drop]
        omega
      obtain ⟨above, last, hrows, hlast, hroom, hfull⟩ := ih _ hshort (line.drop width) rfl
      have hnext (c : α) : wrap width (line ++ [c]) =
          line.take width :: wrap width (line.drop width ++ [c]) := by
        have hlong : width < (line ++ [c]).length := by
          rw [List.length_append]
          exact Nat.lt_succ_of_lt hgt
        rw [wrap_of_lt hwidth hlong, List.take_append_of_le_length hgt.le,
          List.drop_append_of_le_length hgt.le]
      refine ⟨line.take width :: above, last, ?_, hlast, fun h c => ?_, fun h c => ?_⟩
      · rw [wrap_of_lt hwidth hgt, hrows, List.cons_append]
      · rw [hnext, hroom h, List.cons_append]
      · rw [hnext, hfull h, List.cons_append]

/-- **What one more character does to the rows of a text.** A line feed opens an empty row.
A character goes to the end of the last row, or to a new row when that is full. -/
theorem exists_rowsOf {width : ℕ} (hwidth : 0 < width) (text : List (Option α)) :
    ∃ above last, rowsOf width text = above ++ [last] ∧ last.length ≤ width ∧
      rowsOf width (text ++ [none]) = above ++ [last, []] ∧
      (last.length < width → ∀ c, rowsOf width (text ++ [some c]) = above ++ [last ++ [c]]) ∧
      (last.length = width → ∀ c, rowsOf width (text ++ [some c]) = above ++ [last, [c]]) := by
  obtain ⟨lines, line, hlines, hfeed, hchar⟩ := exists_cutLines text
  obtain ⟨above, last, hrows, hlast, hroom, hfull⟩ := exists_wrap hwidth line
  refine ⟨lines.flatMap (wrap width) ++ above, last, ?_, hlast, ?_, fun h c => ?_, fun h c => ?_⟩
  · simp only [rowsOf, hlines, List.flatMap_append, List.flatMap_singleton, hrows,
      List.append_assoc]
  · have hempty : wrap width ([] : List α) = [[]] := wrap_of_le (Nat.zero_le width)
    simp only [rowsOf, hfeed, List.flatMap_append, List.flatMap_cons, List.flatMap_nil, hrows,
      hempty, List.append_assoc, List.cons_append, List.nil_append]
  · simp only [rowsOf, hchar, List.flatMap_append, List.flatMap_singleton, hroom h,
      List.append_assoc]
  · simp only [rowsOf, hchar, List.flatMap_append, List.flatMap_singleton, hfull h,
      List.append_assoc]

/-! ## What a page shows -/

variable {blank : α} {height i j : ℕ} {rows : List (List α)}

/-- A page shows the row that is as far above the last one. -/
theorem shown_eq (blank : α) (height : ℕ) (rows : List (List α)) (i j : ℕ) :
    shown blank height rows i j =
      (rows[rows.length - height + i]?.getD [])[j]?.getD blank := by
  rw [shown, List.getElem?_drop]

/-- An empty row shows nothing. -/
theorem shown_empty : shown blank height [[]] i j = blank := by
  rw [shown_eq]
  cases ([[]] : List (List α)).length - height + i <;> rfl

/-- While there is room below, a new empty row changes nothing. -/
theorem shown_concat_of_lt (h : rows.length < height) :
    shown blank height (rows ++ [[]]) i j = shown blank height rows i j := by
  have hnone : (rows ++ [([] : List α)]).length - height = 0 := by
    rw [List.length_append]
    exact Nat.sub_eq_zero_of_le h
  rw [shown_eq, shown_eq, hnone, Nat.sub_eq_zero_of_le h.le, Nat.zero_add]
  rcases Nat.lt_trichotomy i rows.length with hlt | rfl | hgt
  · rw [List.getElem?_append_left hlt]
  · rw [List.getElem?_concat_length, List.getElem?_eq_none le_rfl]
    rfl
  · have hout : (rows ++ [([] : List α)]).length ≤ i := by
      rw [List.length_append]
      exact hgt
    rw [List.getElem?_eq_none hout, List.getElem?_eq_none hgt.le]

/-- On a full page a new empty row moves all others up by one. -/
theorem shown_concat_of_le (h : height ≤ rows.length) (hi : i + 1 < height) :
    shown blank height (rows ++ [[]]) i j = shown blank height rows (i + 1) j := by
  have hindex : (rows ++ [([] : List α)]).length - height + i = rows.length - height + (i + 1) := by
    rw [List.length_append, List.length_singleton]
    omega
  have hlt : rows.length - height + (i + 1) < rows.length := by omega
  rw [shown_eq, shown_eq, hindex, List.getElem?_append_left hlt]

/-- The last row of a full page is the new one. -/
theorem shown_concat_last (hpos : 0 < height) (h : height ≤ rows.length) :
    shown blank height (rows ++ [[]]) (height - 1) j = blank := by
  have hindex : (rows ++ [([] : List α)]).length - height + (height - 1) = rows.length := by
    rw [List.length_append, List.length_singleton]
    omega
  rw [shown_eq, hindex, List.getElem?_concat_length]
  rfl

/-- A character at the end of the last row is shown there, and changes nothing else. -/
theorem shown_type (hpos : 0 < height) (above : List (List α)) (last : List α) (c : α) :
    shown blank height (above ++ [last ++ [c]]) i j =
      if i = min (above.length + 1) height - 1 ∧ j = last.length then c
      else shown blank height (above ++ [last]) i j := by
  have hlength : (above ++ [last ++ [c]]).length = above.length + 1 := by simp
  have hlength' : (above ++ [last]).length = above.length + 1 := by simp
  rw [shown_eq, shown_eq, hlength, hlength']
  by_cases hi : i = min (above.length + 1) height - 1
  · have hindex : above.length + 1 - height + i = above.length := by omega
    rw [hindex, List.getElem?_concat_length, List.getElem?_concat_length, Option.getD_some,
      Option.getD_some]
    rcases Nat.lt_trichotomy j last.length with hlt | rfl | hgt
    · rw [if_neg fun h => hlt.ne h.2, List.getElem?_append_left hlt]
    · rw [if_pos ⟨hi, rfl⟩, List.getElem?_concat_length, Option.getD_some]
    · rw [if_neg fun h => hgt.ne' h.2, List.getElem?_eq_none, List.getElem?_eq_none hgt.le]
      rw [List.length_append]
      exact hgt
  · rw [if_neg fun h => hi h.1]
    rcases Nat.lt_trichotomy (above.length + 1 - height + i) above.length with hlt | heq | hgt
    · rw [List.getElem?_append_left hlt, List.getElem?_append_left hlt]
    · exact absurd heq (by omega)
    · have hout (row : List α) : (above ++ [row]).length ≤ above.length + 1 - height + i := by
        simp only [List.length_append, List.length_singleton]
        exact hgt
      rw [List.getElem?_eq_none (hout _), List.getElem?_eq_none (hout _)]

end MasterOS.Math
