/-
# The text console

The screen driver: a cursor, a current colour and the cells of the text page, one behind
the other. `print` moves the cursor by one rule for each control character, wraps a full
line when the next character comes, and scrolls by copying the page over itself.

Beside the cells stands a record of the indices that were written, so that a store outside
of the page can be spoken of. The driver itself checks none.
-/

import Mathlib.Algebra.Group.Nat.Defs
import Mathlib.Data.List.Basic
import Mathlib.Data.List.TakeWhile
import Mathlib.Logic.Function.Basic

namespace MasterOS.Console

/-! ## Cells and colours -/

/-- The value of `currColor`. The low byte of a cell is its character, and no colour that
the driver forms has a bit there. -/
structure Color where
  val : UInt16
  low : val.toUInt8 = 0

/-- `defaultColor`: light grey on black. -/
def Color.default : Color := ⟨((0 : UInt16) <<< 12) ||| ((7 : UInt16) <<< 8), by decide⟩

theorem toUInt8_attribute (fg bg : UInt16) : ((bg <<< 12) ||| (fg <<< 8)).toUInt8 = 0 := by
  have hback : (bg <<< 12).toUInt8 = 0 := by
    apply UInt8.toNat_inj.mp
    simp [Nat.shiftLeft_eq]
    omega
  have hfore : (fg <<< 8).toUInt8 = 0 := by
    apply UInt8.toNat_inj.mp
    simp [Nat.shiftLeft_eq]
  rw [UInt16.toUInt8_or, hback, hfore]
  rfl

/-- The colour of a foreground and a background, of which only the low four bits count. -/
def Color.ofParts (fg bg : UInt8) : Color :=
  ⟨((bg &&& 0x0F).toUInt16 <<< 12) ||| ((fg &&& 0x0F).toUInt16 <<< 8), toUInt8_attribute _ _⟩

/-- A `char` widened to the type of a cell: it is signed. -/
def widen (c : UInt8) : UInt16 := if c < 0x80 then c.toUInt16 else 0xFF00 ||| c.toUInt16

/-- `c | currColor`. -/
def Color.cell (color : Color) (c : UInt8) : UInt16 := widen c ||| color.val

/-- The character byte of a cell. -/
def charByte (cell : UInt16) : UInt8 := cell.toUInt8

@[simp]
theorem charByte_cell (color : Color) (c : UInt8) : charByte (color.cell c) = c := by
  have hwide : (widen c).toUInt8 = c := by
    unfold widen
    split_ifs
    · exact UInt8.toUInt8_toUInt16 c
    · rw [UInt16.toUInt8_or, UInt8.toUInt8_toUInt16]
      exact UInt8.zero_or
  rw [charByte, Color.cell, UInt16.toUInt8_or, hwide, color.low]
  exact UInt8.or_zero

/-! ## The state -/

/-- A width or a height: one that the 16-bit counters of the driver's loops can pass. -/
structure Extent where
  val : ℕ
  pos : 0 < val
  lt : val < 2 ^ 16

/-- The variables of the driver, and the indices written so far, the latest first.

No addition of the driver wraps on such a screen. A counter is raised only below an extent,
and an index made of two 16-bit factors and a 16-bit summand fits in 32 bits. -/
structure Screen where
  column : ℕ
  line : ℕ
  currColor : Color
  vgaWidth : Extent
  vgaHeight : Extent
  vga : ℕ → UInt16
  written : List ℕ

/-- `vga[i] = cell`. -/
def Screen.store (s : Screen) (i : ℕ) (cell : UInt16) : Screen :=
  { s with vga := Function.update s.vga i cell, written := i :: s.written }

/-- `' ' | currColor`. -/
def Screen.blank (s : Screen) : UInt16 := s.currColor.cell 0x20

/-- `line * VGAWidth + column`. -/
def Screen.cursor (s : Screen) : ℕ := s.line * s.vgaWidth.val + s.column

/-- A cell by its line and column. -/
theorem cell_lt_page {width height line column : ℕ} (hline : line < height)
    (hcolumn : column < width) : line * width + column < width * height :=
  calc line * width + column
    _ < line * width + width := Nat.add_lt_add_left hcolumn _
    _ = (line + 1) * width := (Nat.succ_mul line width).symm
    _ ≤ height * width := Nat.mul_le_mul_right width hline
    _ = width * height := Nat.mul_comm height width

/-- A cell has one line and one column. -/
theorem cell_inj {width i j k l : ℕ} (hj : j < width) (hl : l < width) :
    i * width + j = k * width + l ↔ i = k ∧ j = l := by
  constructor
  · intro h
    rw [Nat.mul_comm i, Nat.mul_comm k] at h
    have hline := congrArg (· / width) h
    have hcolumn := congrArg (· % width) h
    simp only [Nat.mul_add_div (Nat.zero_lt_of_lt hj), Nat.div_eq_of_lt hj, Nat.div_eq_of_lt hl,
      Nat.mul_add_mod, Nat.mod_eq_of_lt hj, Nat.mod_eq_of_lt hl] at hline hcolumn
    exact ⟨hline, hcolumn⟩
  · rintro ⟨rfl, rfl⟩
    rfl

/-! ## Clearing and scrolling -/

/-- The loop of `Reset`: the first `n` cells become blank. -/
def Screen.clear (n : ℕ) (s : Screen) : Screen :=
  (List.range n).foldl (fun s i => s.store i s.blank) s

/-- `Reset`. -/
def Screen.reset (s : Screen) : Screen :=
  { s.clear (s.vgaWidth.val * s.vgaHeight.val) with column := 0, line := 0 }

/-- The inner loop of `scrollUp`: row `y` is copied over the row above it. -/
def Screen.copyRow (y : ℕ) (s : Screen) : Screen :=
  (List.range s.vgaWidth.val).foldl
    (fun s x => s.store ((y - 1) * s.vgaWidth.val + x) (s.vga (y * s.vgaWidth.val + x))) s

/-- The outer loop of `scrollUp`. -/
def Screen.copyRows (s : Screen) : Screen :=
  (List.range' 1 (s.vgaHeight.val - 1)).foldl (fun s y => s.copyRow y) s

/-- The last loop of `scrollUp`: the last row becomes blank. -/
def Screen.clearLastRow (s : Screen) : Screen :=
  (List.range s.vgaWidth.val).foldl
    (fun s x => s.store ((s.vgaHeight.val - 1) * s.vgaWidth.val + x) s.blank) s

/-- `scrollUp`. -/
def Screen.scrollUp (s : Screen) : Screen := s.copyRows.clearLastRow

/-- `newLine`. -/
def Screen.newLine (s : Screen) : Screen :=
  if s.line < s.vgaHeight.val - 1 then { s with line := s.line + 1, column := 0 }
  else { s.scrollUp with column := 0 }

/-! ## Printing -/

/-- `if (column >= VGAWidth) newLine()`. -/
def Screen.wrapLine (s : Screen) : Screen := if s.vgaWidth.val ≤ s.column then s.newLine else s

/-- A store at the cursor, and the column behind it. -/
def Screen.advance (s : Screen) (cell : UInt16) : Screen :=
  { s.store s.cursor cell with column := s.column + 1 }

/-- The case `'\b'` of `print`. -/
def Screen.backspace (s : Screen) : Screen :=
  let s := if s.column = 0 ∧ s.line ≠ 0 then
    { s with line := s.line - 1, column := s.vgaWidth.val } else s
  if 0 < s.column then
    let s := { s with column := s.column - 1 }
    s.store s.cursor s.blank
  else s

/-- The loop of the case `'\t'`, with `tabLen` cells to go. -/
def Screen.tabCells : ℕ → Screen → Screen
  | 0, s => s
  | tabLen + 1, s =>
      if s.column < s.vgaWidth.val then (s.advance s.blank).tabCells tabLen else s

/-- The case `'\t'` of `print`. -/
def Screen.tab (s : Screen) : Screen :=
  let s := s.wrapLine
  s.tabCells (4 - s.column % 4)

/-- The default case of `print`. -/
def Screen.glyph (c : UInt8) (s : Screen) : Screen :=
  let s := s.wrapLine
  s.advance (s.currColor.cell c)

/-- One character of `print`. -/
def Screen.put (s : Screen) (c : UInt8) : Screen :=
  if c = 0x0A then s.newLine
  else if c = 0x0D then { s with column := 0 }
  else if c = 0x08 then s.backspace
  else if c = 0x09 then s.tab
  else s.glyph c

/-- `print`: up to the NUL. -/
def Screen.print (s : Screen) (text : List UInt8) : Screen :=
  (text.takeWhile (· ≠ 0)).foldl Screen.put s

/-- `set_color`. -/
def Screen.setColor (fg bg : UInt8) (s : Screen) : Screen :=
  { s with currColor := Color.ofParts fg bg }

/-- `reset_color`. -/
def Screen.resetColor (s : Screen) : Screen := { s with currColor := Color.default }

/-- `restore_color`. -/
def Screen.restoreColor (color : Color) (s : Screen) : Screen := { s with currColor := color }

/-! ## Modes -/

/-- `VGAMode`. -/
inductive VGAMode
  | m80X25 | m80X50 | m90X60
  deriving DecidableEq

/-- The value 80 of `VGAWidth`. -/
def Extent.eighty : Extent := ⟨80, by decide, by decide⟩

/-- The value 50 of `VGAHeight`. -/
def Extent.fifty : Extent := ⟨50, by decide, by decide⟩

/-- The value 25 of `VGAHeight`. -/
def Extent.twentyFive : Extent := ⟨25, by decide, by decide⟩

/-- `VGASM`. The registers and the font that it loads are not part of the state. -/
def Screen.vgasm (mode : VGAMode) (s : Screen) : Screen :=
  match mode with
  | .m80X25 => { s with vgaWidth := .eighty, vgaHeight := .twentyFive }
  | .m80X50 => Screen.reset { s with vgaWidth := .eighty, vgaHeight := .fifty }
  | .m90X60 => s

/-- The screen at the start of `kmain`, behind its `VGAHeight = 50` and `Reset`, from
whatever the cells held. -/
def Screen.boot (cells : ℕ → UInt16) : Screen :=
  Screen.reset {
    column := 0
    line := 0
    currColor := .default
    vgaWidth := .eighty
    vgaHeight := .fifty
    vga := cells
    written := [] }

/-! ## What the loops leave alone -/

/-- A step writes cells and nothing else. -/
structure Screen.Keeps (s s' : Screen) : Prop where
  column : s'.column = s.column
  line : s'.line = s.line
  currColor : s'.currColor = s.currColor
  vgaWidth : s'.vgaWidth = s.vgaWidth
  vgaHeight : s'.vgaHeight = s.vgaHeight

theorem Screen.Keeps.refl (s : Screen) : s.Keeps s := ⟨rfl, rfl, rfl, rfl, rfl⟩

theorem Screen.Keeps.trans {s s' s'' : Screen} (h : s.Keeps s') (h' : s'.Keeps s'') :
    s.Keeps s'' where
  column := h'.column.trans h.column
  line := h'.line.trans h.line
  currColor := h'.currColor.trans h.currColor
  vgaWidth := h'.vgaWidth.trans h.vgaWidth
  vgaHeight := h'.vgaHeight.trans h.vgaHeight

theorem Screen.store_keeps (s : Screen) (i : ℕ) (cell : UInt16) : s.Keeps (s.store i cell) :=
  ⟨rfl, rfl, rfl, rfl, rfl⟩

/-- What writes nothing but cells in each round writes nothing but cells. -/
theorem Screen.foldl_keeps {body : Screen → ℕ → Screen}
    (h : ∀ (s : Screen) x, s.Keeps (body s x))
    (l : List ℕ) (s : Screen) : s.Keeps (l.foldl body s) :=
  List.foldlRecOn l body (.refl s) fun s' hs' x _ => hs'.trans (h s' x)

theorem Screen.clear_keeps (n : ℕ) (s : Screen) : s.Keeps (s.clear n) :=
  foldl_keeps (fun s i => s.store_keeps i s.blank) _ s

theorem Screen.copyRow_keeps (y : ℕ) (s : Screen) : s.Keeps (s.copyRow y) :=
  foldl_keeps (fun s _ => s.store_keeps _ _) _ s

theorem Screen.copyRows_keeps (s : Screen) : s.Keeps s.copyRows :=
  foldl_keeps (fun s y => s.copyRow_keeps y) _ s

theorem Screen.clearLastRow_keeps (s : Screen) : s.Keeps s.clearLastRow :=
  foldl_keeps (fun s _ => s.store_keeps _ _) _ s

theorem Screen.scrollUp_keeps (s : Screen) : s.Keeps s.scrollUp :=
  s.copyRows_keeps.trans s.copyRows.clearLastRow_keeps

/-- The size of the page and the colour are the same. -/
structure Screen.SameMode (s s' : Screen) : Prop where
  currColor : s'.currColor = s.currColor
  vgaWidth : s'.vgaWidth = s.vgaWidth
  vgaHeight : s'.vgaHeight = s.vgaHeight

theorem Screen.SameMode.refl (s : Screen) : s.SameMode s := ⟨rfl, rfl, rfl⟩

theorem Screen.SameMode.trans {s s' s'' : Screen} (h : s.SameMode s') (h' : s'.SameMode s'') :
    s.SameMode s'' where
  currColor := h'.currColor.trans h.currColor
  vgaWidth := h'.vgaWidth.trans h.vgaWidth
  vgaHeight := h'.vgaHeight.trans h.vgaHeight

theorem Screen.reset_sameMode (s : Screen) : s.SameMode s.reset :=
  ⟨(s.clear_keeps _).currColor, (s.clear_keeps _).vgaWidth, (s.clear_keeps _).vgaHeight⟩

theorem Screen.newLine_sameMode (s : Screen) : s.SameMode s.newLine := by
  unfold Screen.newLine
  split_ifs
  · exact ⟨rfl, rfl, rfl⟩
  · exact ⟨s.scrollUp_keeps.currColor, s.scrollUp_keeps.vgaWidth, s.scrollUp_keeps.vgaHeight⟩

theorem Screen.wrapLine_sameMode (s : Screen) : s.SameMode s.wrapLine := by
  unfold Screen.wrapLine
  split_ifs
  · exact s.newLine_sameMode
  · exact .refl s

theorem Screen.backspace_sameMode (s : Screen) : s.SameMode s.backspace := by
  unfold Screen.backspace
  dsimp only
  split_ifs <;> exact ⟨rfl, rfl, rfl⟩

theorem Screen.tabCells_sameMode (tabLen : ℕ) (s : Screen) : s.SameMode (s.tabCells tabLen) := by
  induction tabLen generalizing s with
  | zero => exact .refl s
  | succ tabLen ih =>
      rw [Screen.tabCells]
      split_ifs
      · have hadvance : s.SameMode (s.advance s.blank) := ⟨rfl, rfl, rfl⟩
        exact hadvance.trans (ih _)
      · exact .refl s

/-- Printing changes neither the size of the page nor the colour. -/
theorem Screen.put_sameMode (s : Screen) (c : UInt8) : s.SameMode (s.put c) := by
  unfold Screen.put
  split_ifs
  · exact s.newLine_sameMode
  · exact ⟨rfl, rfl, rfl⟩
  · exact s.backspace_sameMode
  · exact s.wrapLine_sameMode.trans (Screen.tabCells_sameMode _ _)
  · exact s.wrapLine_sameMode.trans ⟨rfl, rfl, rfl⟩

theorem Screen.foldl_put_sameMode (text : List UInt8) (s : Screen) :
    s.SameMode (text.foldl Screen.put s) :=
  List.foldlRecOn text Screen.put (.refl s) fun s' hs' c _ => hs'.trans (s'.put_sameMode c)

theorem Screen.print_sameMode (s : Screen) (text : List UInt8) : s.SameMode (s.print text) :=
  foldl_put_sameMode _ s

/-- A text without a NUL is printed to its end. -/
theorem Screen.print_eq_foldl {text : List UInt8} (h : ∀ c ∈ text, c ≠ 0) (s : Screen) :
    s.print text = text.foldl Screen.put s := by
  have hall : text.takeWhile (· ≠ 0) = text := by
    apply List.takeWhile_eq_self_iff.mpr
    intro c hc
    exact decide_eq_true (h c hc)
  rw [Screen.print, hall]

theorem Screen.newLine_column (s : Screen) : s.newLine.column = 0 := by
  unfold Screen.newLine
  split_ifs <;> rfl

/-- Behind the wrap there is room on the line. -/
theorem Screen.wrapLine_column_lt (s : Screen) :
    s.wrapLine.column < s.wrapLine.vgaWidth.val := by
  unfold Screen.wrapLine
  split_ifs with hcolumn
  · rw [newLine_column]
    exact s.newLine.vgaWidth.pos
  · exact Nat.not_le.mp hcolumn

end MasterOS.Console
