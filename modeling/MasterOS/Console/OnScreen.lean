/-
# The cursor and the page

Whether the console stays on its page. Every operation keeps the cursor inside and writes
cells of the page only, but for one: the switch to 80 by 25 makes the page smaller and
leaves the cursor where it is, where the switch to 80 by 50 calls `Reset`. A run stays on
the page exactly when no such switch is made with the cursor below line 24.
-/

import MasterOS.Console.Vga
import Mathlib.Data.List.Induction
import Mathlib.Data.Nat.Basic
import Mathlib.Order.Basic

namespace MasterOS.Console

/-! ## The operations -/

/-- The operations of the console. -/
inductive ConsoleOp
  | print (text : List UInt8)
  | newLine
  | scrollUp
  | reset
  | setColor (fg bg : UInt8)
  | vgasm (mode : VGAMode)

/-- Carry an operation out. -/
def ConsoleOp.perform : ConsoleOp → Screen → Screen
  | .print text, s => s.print text
  | .newLine, s => s.newLine
  | .scrollUp, s => s.scrollUp
  | .reset, s => s.reset
  | .setColor fg bg, s => s.setColor fg bg
  | .vgasm mode, s => s.vgasm mode

/-- Carry an operation out with a record of its own. -/
def ConsoleOp.run (s : Screen) (op : ConsoleOp) : Screen := op.perform { s with written := [] }

/-- Carry operations out one after the other. -/
def runOps (ops : List ConsoleOp) (s : Screen) : Screen := ops.foldl ConsoleOp.run s

/-- The cursor is on the page, or behind the end of one of its lines, and the last operation
wrote cells of the page only. -/
structure Screen.OnPage (s : Screen) : Prop where
  line : s.line < s.vgaHeight.val
  column : s.column ≤ s.vgaWidth.val
  written : ∀ i ∈ s.written, i < s.vgaWidth.val * s.vgaHeight.val

/-! ## Each piece of the driver -/

variable {s s' : Screen}

/-- A loop that writes cells of the page only. -/
theorem Screen.OnPage.loop (h : s.OnPage) (hkeeps : s.Keeps s')
    (hwritten : ∀ i ∈ s'.written, i < s.vgaWidth.val * s.vgaHeight.val) : s'.OnPage where
  line := by rw [hkeeps.line, hkeeps.vgaHeight]; exact h.line
  column := by rw [hkeeps.column, hkeeps.vgaWidth]; exact h.column
  written := by rw [hkeeps.vgaWidth, hkeeps.vgaHeight]; exact hwritten

/-- The rounds of a loop write cells of the page only, if every round does. -/
theorem Screen.foldl_written {body : Screen → ℕ → Screen} {l : List ℕ} {bound : ℕ}
    (hkeeps : ∀ (s : Screen) x, s.Keeps (body s x))
    (hbody : ∀ (s' : Screen) x, s.Keeps s' → x ∈ l → (∀ i ∈ s'.written, i < bound) →
      ∀ i ∈ (body s' x).written, i < bound)
    (hs : ∀ i ∈ s.written, i < bound) : ∀ i ∈ (l.foldl body s).written, i < bound := by
  have hall : s.Keeps (l.foldl body s) ∧ ∀ i ∈ (l.foldl body s).written, i < bound := by
    apply List.foldlRecOn l body (motive := fun s' => s.Keeps s' ∧ ∀ i ∈ s'.written, i < bound)
    · exact ⟨.refl s, hs⟩
    · intro s' hs' x hx
      exact ⟨hs'.1.trans (hkeeps s' x), hbody s' x hs'.1 hx hs'.2⟩
  exact hall.2

theorem Screen.store_written {bound i : ℕ} {cell : UInt16} (hi : i < bound)
    (hs : ∀ j ∈ s.written, j < bound) : ∀ j ∈ (s.store i cell).written, j < bound := by
  intro j hj
  rcases List.mem_cons.mp hj with rfl | hj
  · exact hi
  · exact hs j hj

theorem Screen.clear_written {n bound : ℕ} (hn : n ≤ bound) (hs : ∀ i ∈ s.written, i < bound) :
    ∀ i ∈ (s.clear n).written, i < bound := by
  apply foldl_written (fun s i => s.store_keeps i s.blank) _ hs
  intro s' x _ hx hs'
  exact store_written ((List.mem_range.mp hx).trans_le hn) hs'

theorem Screen.copyRow_written {y bound : ℕ} (hy : 0 < y)
    (hbound : y * s.vgaWidth.val ≤ bound) (hs : ∀ i ∈ s.written, i < bound) :
    ∀ i ∈ (s.copyRow y).written, i < bound := by
  apply foldl_written (fun s x => s.store_keeps _ _) _ hs
  intro s' x hkeeps hx hs'
  apply store_written _ hs'
  rw [hkeeps.vgaWidth]
  calc (y - 1) * s.vgaWidth.val + x
    _ < (y - 1) * s.vgaWidth.val + s.vgaWidth.val :=
        Nat.add_lt_add_left (List.mem_range.mp hx) _
    _ = y * s.vgaWidth.val := by
        rw [← Nat.succ_mul, Nat.succ_eq_add_one, Nat.sub_add_cancel hy]
    _ ≤ bound := hbound

theorem Screen.copyRows_written
    (hs : ∀ i ∈ s.written, i < s.vgaWidth.val * s.vgaHeight.val) :
    ∀ i ∈ s.copyRows.written, i < s.vgaWidth.val * s.vgaHeight.val := by
  apply foldl_written (fun s y => s.copyRow_keeps y) _ hs
  intro s' y hkeeps hy hs'
  have hrange := List.mem_range'_1.mp hy
  have hheight : y ≤ s.vgaHeight.val := by omega
  apply copyRow_written hrange.1 _ hs'
  rw [hkeeps.vgaWidth, Nat.mul_comm]
  exact Nat.mul_le_mul_left _ hheight

theorem Screen.clearLastRow_written
    (hs : ∀ i ∈ s.written, i < s.vgaWidth.val * s.vgaHeight.val) :
    ∀ i ∈ s.clearLastRow.written, i < s.vgaWidth.val * s.vgaHeight.val := by
  apply foldl_written (fun s x => s.store_keeps _ _) _ hs
  intro s' x hkeeps hx hs'
  apply store_written _ hs'
  rw [hkeeps.vgaWidth, hkeeps.vgaHeight]
  exact cell_lt_page (Nat.sub_lt s.vgaHeight.pos Nat.one_pos) (List.mem_range.mp hx)

theorem Screen.OnPage.scrollUp (h : s.OnPage) : s.scrollUp.OnPage := by
  apply h.loop s.scrollUp_keeps
  have hkeeps := s.copyRows_keeps
  have hrows := copyRows_written h.written
  rw [← hkeeps.vgaWidth, ← hkeeps.vgaHeight] at hrows ⊢
  exact clearLastRow_written hrows

theorem Screen.OnPage.newLine (h : s.OnPage) : s.newLine.OnPage := by
  unfold Screen.newLine
  split_ifs with hline
  · exact ⟨Nat.add_lt_of_lt_sub hline, Nat.zero_le _, h.written⟩
  · exact ⟨h.scrollUp.line, Nat.zero_le _, h.scrollUp.written⟩

/-- `Reset` brings the cursor back from wherever it is. -/
theorem Screen.reset_onPage (h : ∀ i ∈ s.written, i < s.vgaWidth.val * s.vgaHeight.val) :
    s.reset.OnPage := by
  have hkeeps := s.clear_keeps (s.vgaWidth.val * s.vgaHeight.val)
  refine ⟨?_, Nat.zero_le _, ?_⟩
  · exact (s.clear _).vgaHeight.pos
  · show ∀ i ∈ (s.clear _).written, i < (s.clear _).vgaWidth.val * (s.clear _).vgaHeight.val
    rw [hkeeps.vgaWidth, hkeeps.vgaHeight]
    exact clear_written le_rfl h

theorem Screen.OnPage.wrapLine (h : s.OnPage) : s.wrapLine.OnPage := by
  unfold Screen.wrapLine
  split_ifs
  · exact h.newLine
  · exact h

theorem Screen.OnPage.advance (h : s.OnPage) (hcolumn : s.column < s.vgaWidth.val)
    (cell : UInt16) : (s.advance cell).OnPage where
  line := h.line
  column := hcolumn
  written := @store_written _ _ _ cell (cell_lt_page h.line hcolumn) h.written

theorem Screen.OnPage.tabCells (h : s.OnPage) (tabLen : ℕ) : (s.tabCells tabLen).OnPage := by
  induction tabLen generalizing s with
  | zero => exact h
  | succ tabLen ih =>
      rw [Screen.tabCells]
      split_ifs with hcolumn
      · exact ih (h.advance hcolumn s.blank)
      · exact h

theorem Screen.OnPage.backspace (h : s.OnPage) : s.backspace.OnPage := by
  unfold Screen.backspace
  by_cases hstart : s.column = 0 ∧ s.line ≠ 0
  · simp only [if_pos hstart, if_pos s.vgaWidth.pos]
    have hline : s.line - 1 < s.vgaHeight.val := (Nat.sub_le _ _).trans_lt h.line
    have hcolumn : s.vgaWidth.val - 1 < s.vgaWidth.val := Nat.sub_lt s.vgaWidth.pos Nat.one_pos
    exact ⟨hline, hcolumn.le, store_written (cell_lt_page hline hcolumn) h.written⟩
  · simp only [if_neg hstart]
    split_ifs with hcolumn
    · have hlt : s.column - 1 < s.vgaWidth.val :=
        (Nat.sub_lt hcolumn Nat.one_pos).trans_le h.column
      exact ⟨h.line, hlt.le, store_written (cell_lt_page h.line hlt) h.written⟩
    · exact h

/-- One character, by its case. -/
theorem Screen.OnPage.put (h : s.OnPage) (c : UInt8) : (s.put c).OnPage := by
  unfold Screen.put
  split_ifs
  · exact h.newLine
  · exact ⟨h.line, Nat.zero_le _, h.written⟩
  · exact h.backspace
  · exact h.wrapLine.tabCells _
  · exact h.wrapLine.advance (Screen.wrapLine_column_lt _) _

theorem Screen.OnPage.print (h : s.OnPage) (text : List UInt8) : (s.print text).OnPage :=
  List.foldlRecOn _ Screen.put h fun _ hs _ _ => hs.put _

/-! ## Runs -/

/-- The switch that leaves the cursor outside of the page. -/
def ConsoleOp.Strands (op : ConsoleOp) (s : Screen) : Prop :=
  op = .vgasm .m80X25 ∧ 25 ≤ s.line

/-- The screen starts on its page. -/
theorem Screen.boot_onPage (cells : ℕ → UInt16) : (Screen.boot cells).OnPage :=
  reset_onPage nofun

/-- What an operation can do, from a page of the width that every mode has: the console
stays on the page unless the operation is a switch that strands the cursor. -/
theorem ConsoleOp.run_onPage_iff (h : s.OnPage) (hwidth : s.vgaWidth = .eighty)
    (op : ConsoleOp) : (op.run s).OnPage ↔ ¬ op.Strands s := by
  have hfresh : ({ s with written := [] } : Screen).OnPage := ⟨h.line, h.column, nofun⟩
  have hother (hop : op ≠ .vgasm .m80X25) (hrun : (op.run s).OnPage) :
      (op.run s).OnPage ↔ ¬ op.Strands s :=
    iff_of_true hrun fun hstrands => hop hstrands.1
  cases op with
  | print text => exact hother nofun (hfresh.print text)
  | newLine => exact hother nofun hfresh.newLine
  | scrollUp => exact hother nofun hfresh.scrollUp
  | reset => exact hother nofun (Screen.reset_onPage nofun)
  | setColor fg bg => exact hother nofun ⟨h.line, h.column, nofun⟩
  | vgasm mode =>
      cases mode with
      | m80X25 =>
          constructor
          · intro hpage hstrands
            exact Nat.not_lt.mpr hstrands.2 hpage.line
          · intro hstrands
            have hline : s.line < 25 := Nat.not_le.mp fun hle => hstrands ⟨rfl, hle⟩
            have hcolumn : s.column ≤ Extent.eighty.val := hwidth ▸ h.column
            exact ⟨hline, hcolumn, nofun⟩
      | m80X50 => exact hother nofun (Screen.reset_onPage nofun)
      | m90X60 => exact hother nofun hfresh

/-- Every mode is 80 columns wide. -/
theorem ConsoleOp.run_vgaWidth (hwidth : s.vgaWidth = .eighty) (op : ConsoleOp) :
    (op.run s).vgaWidth = .eighty := by
  cases op with
  | print text => exact (Screen.print_sameMode _ text).vgaWidth.trans hwidth
  | newLine => exact (Screen.newLine_sameMode _).vgaWidth.trans hwidth
  | scrollUp => exact (Screen.scrollUp_keeps _).vgaWidth.trans hwidth
  | reset => exact (Screen.reset_sameMode _).vgaWidth.trans hwidth
  | setColor fg bg => exact hwidth
  | vgasm mode =>
      cases mode with
      | m80X25 => rfl
      | m80X50 => exact (Screen.reset_sameMode _).vgaWidth
      | m90X60 => exact hwidth

theorem runOps_concat (done : List ConsoleOp) (op : ConsoleOp) (s : Screen) :
    runOps (done ++ [op]) s = op.run (runOps done s) := by
  rw [runOps, List.foldl_append]
  rfl

theorem runOps_vgaWidth (cells : ℕ → UInt16) (ops : List ConsoleOp) :
    (runOps ops (Screen.boot cells)).vgaWidth = .eighty := by
  apply List.foldlRecOn ops ConsoleOp.run (motive := fun s => s.vgaWidth = .eighty)
  · exact (Screen.reset_sameMode _).vgaWidth
  · intro s hs op _
    exact op.run_vgaWidth hs

/-- **The console stays on its page exactly as long as no switch to 80 by 25 strands its
cursor.** -/
theorem stays_onPage_iff (cells : ℕ → UInt16) (ops : List ConsoleOp) :
    (∀ done, done <+: ops → (runOps done (Screen.boot cells)).OnPage) ↔
      ∀ done op, done ++ [op] <+: ops → ¬ op.Strands (runOps done (Screen.boot cells)) := by
  constructor
  · intro hpage done op hpre
    have hbefore := hpage done ((List.prefix_append done [op]).trans hpre)
    have hafter := hpage (done ++ [op]) hpre
    rw [runOps_concat] at hafter
    exact (op.run_onPage_iff hbefore (runOps_vgaWidth cells done)).mp hafter
  · intro hstrands done hpre
    induction done using List.reverseRecOn with
    | nil => exact Screen.boot_onPage cells
    | append_singleton done op ih =>
        have hbefore := ih ((List.prefix_append done [op]).trans hpre)
        rw [runOps_concat, op.run_onPage_iff hbefore (runOps_vgaWidth cells done)]
        exact hstrands done op hpre

/-- Thirty lines down the page, a switch to 80 by 25 and a letter. -/
def strandingOps : List ConsoleOp :=
  [.print (List.replicate 30 0x0A), .vgasm .m80X25, .print [0x41]]

/-- The cursor is left on line 30 of 25, and the letter goes to cell 2400 of 2000. -/
theorem cursor_leaves_page :
    ¬ (runOps strandingOps (Screen.boot fun _ => 0)).OnPage ∧
      (runOps strandingOps (Screen.boot fun _ => 0)).line = 30 ∧
      (runOps strandingOps (Screen.boot fun _ => 0)).vgaHeight.val = 25 ∧
      (runOps strandingOps (Screen.boot fun _ => 0)).written = [2400] := by
  have hrun : (runOps strandingOps (Screen.boot fun _ => 0)).line = 30 ∧
      (runOps strandingOps (Screen.boot fun _ => 0)).vgaHeight.val = 25 ∧
      (runOps strandingOps (Screen.boot fun _ => 0)).written = [2400] := by
    decide +kernel
  constructor
  · intro hpage
    have hline := hpage.line
    rw [hrun.1, hrun.2.1] at hline
    exact absurd hline (by decide)
  · exact hrun

end MasterOS.Console
