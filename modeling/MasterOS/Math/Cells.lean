/-
# Stores that are arrays

A store with two accessors is an array when these satisfy the laws of cells. What is set may
be cut to what a cell can keep. However the cells are packed, the laws alone say that
settings are undone by setting the same cells back.
-/

import Mathlib.Logic.Relation

namespace MasterOS.Math

variable {S I V : Type}

/-- The laws of cells. -/
structure IsArray (get : S → I → V) (set : S → I → V → S) (keep : V → V) : Prop where
  get_set : ∀ s i v, get (set s i v) i = keep v
  get_set_of_ne : ∀ s i j v, j ≠ i → get (set s i v) j = get s j
  set_get : ∀ s i, set s i (get s i) = s
  set_set : ∀ s i v w, set (set s i v) i w = set s i w
  set_comm : ∀ s i j v w, j ≠ i → set (set s i v) j w = set (set s j w) i v

/-- Any number of settings of these cells. -/
def Edited (set : S → I → V → S) (cells : List I) : S → S → Prop :=
  Relation.ReflTransGen fun s s' => ∃ i ∈ cells, ∃ v, s' = set s i v

variable {get : S → I → V} {set : S → I → V → S} {keep : V → V} {s s' : S}

/-- Set cells back to what they hold in another store. -/
def setBack (get : S → I → V) (set : S → I → V → S) (s : S) (cells : List I) (s' : S) : S :=
  cells.foldl (fun t i => set t i (get s i)) s'

/-- A cell that is set back forgets what was set before. -/
theorem IsArray.setBack_set (h : IsArray get set keep) {cells : List I} {i : I}
    (hi : i ∈ cells) (t : S) (v : V) :
    setBack get set s cells (set t i v) = setBack get set s cells t := by
  induction cells generalizing t with
  | nil => cases hi
  | cons j rest ih =>
      rw [setBack, setBack, List.foldl_cons, List.foldl_cons]
      by_cases hj : j = i
      · rw [hj, h.set_set]
      · rw [h.set_comm _ _ _ _ _ hj]
        exact ih ((List.mem_cons.mp hi).resolve_left (Ne.symm hj)) _

theorem IsArray.setBack_self (h : IsArray get set keep) (cells : List I) :
    setBack get set s cells s = s := by
  induction cells with
  | nil => rfl
  | cons i rest ih =>
      rw [setBack, List.foldl_cons, h.set_get]
      exact ih

/-- **Settings are undone cell by cell.** -/
theorem IsArray.setBack_edited (h : IsArray get set keep) {cells : List I}
    (hedit : Edited set cells s s') : setBack get set s cells s' = s := by
  induction hedit with
  | refl => exact h.setBack_self cells
  | tail _ hstep ih =>
      obtain ⟨i, hi, v, rfl⟩ := hstep
      rw [h.setBack_set hi, ih]

end MasterOS.Math
