/-
# Colours on the screen

What each character that is printed should leave in every cell of the page, and when it does.
A cell has its character in the low half and an attribute in the high half. The driver
combines the two with `|`, and a `char` is signed: from `0x80` on the high half of the
widened character is full of ones, and the attribute is lost.
-/

import MasterOS.Console.Echo
import MasterOS.Console.Page

namespace MasterOS.Console

/-! ## What a character should leave -/

/-- The attribute byte of a cell or a colour. -/
def attributeByte (cell : UInt16) : UInt8 := (cell >>> 8).toUInt8

/-- The cell of a character in a colour. -/
def Color.shows (color : Color) (c : UInt8) : UInt16 := color.val ||| c.toUInt16

/-- The line and the column that a character goes to: the next line when the line is full. -/
def Screen.landing (s : Screen) : ℕ × ℕ :=
  if s.vgaWidth.val ≤ s.column then (if s.line < s.vgaHeight.val - 1 then s.line + 1 else s.line, 0)
  else (s.line, s.column)

/-- The cell that a character goes to. -/
def Screen.target (s : Screen) : ℕ := s.landing.1 * s.vgaWidth.val + s.landing.2

/-- The end of a tab: the next column that four divides, or the end of the line. -/
def Screen.tabEnd (s : Screen) : ℕ :=
  s.landing.1 * s.vgaWidth.val + min (s.landing.2 + (4 - s.landing.2 % 4)) s.vgaWidth.val

instance (s : Screen) (c : UInt8) : Decidable (s.PutScrolls c) :=
  inferInstanceAs (Decidable (_ ∧ _))

/-- The page when it has scrolled for a character, or has not. -/
def Screen.moved (s : Screen) (c : UInt8) (i : ℕ) : UInt16 :=
  if s.PutScrolls c then
    if i < (s.vgaHeight.val - 1) * s.vgaWidth.val then s.vga (i + s.vgaWidth.val)
    else if i < (s.vgaHeight.val - 1) * s.vgaWidth.val + s.vgaWidth.val then s.currColor.shows 0x20
    else s.vga i
  else s.vga i

/-- The cells after a character. An erased cell, a tab and a new last row hold spaces in the
current colour, the character's own cell holds it in that colour, and the others are those
from before, moved by the scrolling. -/
def Screen.painted (s : Screen) (c : UInt8) (i : ℕ) : UInt16 :=
  if c = 0x08 then
    if 0 < s.cursor ∧ i = s.cursor - 1 then s.currColor.shows 0x20 else s.vga i
  else if c = 0x09 then
    if s.target ≤ i ∧ i < s.tabEnd then s.currColor.shows 0x20 else s.moved c i
  else if c = 0x0A ∨ c = 0x0D then s.moved c i
  else if i = s.target then s.currColor.shows c else s.moved c i

/-- Every character of a text leaves what it should. -/
def Screen.PaintsText : Screen → List UInt8 → Prop
  | _, [] => True
  | s, c :: rest => (∀ i, (s.put c).vga i = s.painted c i) ∧ (s.put c).PaintsText rest

/-- The calls. A colour that is restored is one that the driver had. -/
inductive ColorCall
  | setColor (fg bg : UInt8)
  | restoreColor (color : Color)
  | resetColor
  | print (text : List UInt8)

/-- A call as the driver runs it. -/
def ColorCall.run (s : Screen) : ColorCall → Screen
  | .setColor fg bg => s.setColor fg bg
  | .restoreColor color => s.restoreColor color
  | .resetColor => s.resetColor
  | .print text => s.print text

/-- A call leaves what it should: a text every character of it, and the others no cell changed. -/
def ColorCall.Paints (s : Screen) : ColorCall → Prop
  | .print text => s.PaintsText (text.takeWhile (· ≠ 0))
  | call => (call.run s).vga = s.vga

/-- Every call leaves what it should. -/
def PaintsAll : Screen → List ColorCall → Prop
  | _, [] => True
  | s, call :: calls => call.Paints s ∧ PaintsAll (call.run s) calls

/-! ## When it does -/

/-- A character keeps the attribute of a colour: it is below `0x80`, or the attribute is full
of ones itself. -/
def Color.Keeps (color : Color) (c : UInt8) : Prop := c < 0x80 ∨ attributeByte color.val = 0xFF

/-- The colour behind a call. -/
def ColorCall.colorAfter (color : Color) : ColorCall → Color
  | .setColor fg bg => Color.ofParts fg bg
  | .restoreColor color => color
  | .resetColor => Color.default
  | .print _ => color

/-- Every character that is printed keeps the attribute of the colour current at that moment. -/
def KeepsAll : Color → List ColorCall → Prop
  | _, [] => True
  | color, call :: calls =>
      (∀ text, call = .print text → ∀ c ∈ text.takeWhile (· ≠ 0), color.Keeps c) ∧
        KeepsAll (call.colorAfter color) calls

/-! ## Cells -/

theorem attributeByte_toNat (cell : UInt16) : (attributeByte cell).toNat = cell.toNat / 256 := by
  have := cell.toNat_lt
  rw [attributeByte, UInt16.toNat_toUInt8, UInt16.toNat_shiftRight, Nat.shiftRight_eq_div_pow]
  exact Nat.mod_eq_of_lt (Nat.div_lt_of_lt_mul this)

theorem attributeByte_or (cell cell' : UInt16) :
    attributeByte (cell ||| cell') = attributeByte cell ||| attributeByte cell' := by
  apply UInt8.toNat_inj.mp
  rw [UInt8.toNat_or, attributeByte_toNat, attributeByte_toNat, attributeByte_toNat,
    UInt16.toNat_or]
  exact Nat.or_div_two_pow (n := 8)

theorem attributeByte_toUInt16 (c : UInt8) : attributeByte c.toUInt16 = 0 := by
  apply UInt8.toNat_inj.mp
  rw [attributeByte_toNat, UInt8.toNat_toUInt16]
  exact Nat.div_eq_of_lt c.toNat_lt

/-- The two halves of the cell that a character should have. -/
theorem Color.shows_bytes (color : Color) (c : UInt8) :
    charByte (color.shows c) = c ∧ attributeByte (color.shows c) = attributeByte color.val := by
  constructor
  · rw [charByte, Color.shows, UInt16.toUInt8_or, color.low, UInt8.toUInt8_toUInt16, UInt8.zero_or]
  · rw [Color.shows, attributeByte_or, attributeByte_toUInt16, UInt8.or_zero]

/-- A colour is its attribute. -/
theorem Color.val_eq_of_attributeByte {color : Color} (h : attributeByte color.val = 0xFF) :
    color.val = 0xFF00 := by
  have hhigh := congrArg UInt8.toNat h
  have hlow := congrArg UInt8.toNat color.low
  rw [attributeByte_toNat, show (0xFF : UInt8).toNat = 255 from rfl] at hhigh
  rw [UInt16.toNat_toUInt8, show (0 : UInt8).toNat = 0 from rfl] at hlow
  apply UInt16.toNat_inj.mp
  rw [show (0xFF00 : UInt16).toNat = 65280 from rfl]
  omega

/-- The cell is right exactly when the character keeps the attribute. -/
theorem Color.cell_eq_shows_iff (color : Color) (c : UInt8) :
    color.cell c = color.shows c ↔ color.Keeps c := by
  rw [Color.cell, Color.shows, Color.Keeps, widen]
  by_cases hc : c < 0x80
  · rw [if_pos hc, UInt16.or_comm]
    exact iff_of_true rfl (Or.inl hc)
  · rw [if_neg hc, or_iff_right hc]
    constructor
    · intro h
      have hsame := congrArg attributeByte h
      rw [attributeByte_or, attributeByte_or, attributeByte_or, attributeByte_toUInt16,
        UInt8.or_zero, UInt8.or_zero, show attributeByte 0xFF00 = 0xFF from rfl] at hsame
      rw [← hsame]
      exact UInt8.neg_one_or
    · intro h
      rw [Color.val_eq_of_attributeByte h, UInt16.or_comm, ← UInt16.or_assoc, UInt16.or_self]

/-- A blank is right in any colour. -/
theorem Screen.blank_eq (s : Screen) : s.blank = s.currColor.shows 0x20 :=
  (Color.cell_eq_shows_iff s.currColor 0x20).mpr (Or.inl (by decide))

/-! ## One character -/

variable {s : Screen}

theorem Screen.scrollUp_vga_eq (s : Screen) (i : ℕ) : s.scrollUp.vga i =
    if i < (s.vgaHeight.val - 1) * s.vgaWidth.val then s.vga (i + s.vgaWidth.val)
    else if i < (s.vgaHeight.val - 1) * s.vgaWidth.val + s.vgaWidth.val then s.currColor.shows 0x20
    else s.vga i := by
  have hkeeps := s.copyRows_keeps
  rw [Screen.scrollUp, Screen.clearLastRow_vga, hkeeps.vgaWidth, hkeeps.vgaHeight, hkeeps.blank,
    Screen.copyRows_vga, s.blank_eq]
  by_cases habove : i < (s.vgaHeight.val - 1) * s.vgaWidth.val
  · rw [if_neg fun h => Nat.not_le.mpr habove h.1, if_pos habove, if_pos habove]
  · rw [if_neg habove, if_neg habove]
    exact if_congr (and_iff_right (Nat.not_lt.mp habove)) rfl rfl

/-- A new line. -/
theorem Screen.newLine_vga (s : Screen) (i : ℕ) : s.newLine.vga i = s.moved 0x0A i := by
  rw [Screen.newLine, Screen.moved]
  by_cases hline : s.line < s.vgaHeight.val - 1
  · rw [if_pos hline, if_neg fun h => h.2 hline]
  · rw [if_neg hline, if_pos ⟨Or.inl rfl, hline⟩]
    exact s.scrollUp_vga_eq i

/-- The wrap before a character that takes a cell. -/
theorem Screen.wrapLine_vga {c : UInt8} (hc : c ≠ 0x0A ∧ c ≠ 0x0D ∧ c ≠ 0x08) (i : ℕ) :
    s.wrapLine.vga i = s.moved c i := by
  rw [Screen.wrapLine, Screen.moved]
  by_cases hfull : s.vgaWidth.val ≤ s.column
  · have hiff : s.PutScrolls c ↔ s.PutScrolls 0x0A :=
      and_congr_left' (iff_of_true (Or.inr ⟨hc.2.1, hc.2.2, hfull⟩) (Or.inl rfl))
    rw [if_pos hfull, s.newLine_vga, Screen.moved]
    exact if_congr hiff.symm rfl rfl
  · rw [if_neg hfull, if_neg fun h => h.1.elim hc.1 fun h => hfull h.2.2]

theorem Screen.wrapLine_landing (s : Screen) :
    s.wrapLine.line = s.landing.1 ∧ s.wrapLine.column = s.landing.2 := by
  rw [Screen.wrapLine, Screen.landing, Screen.newLine]
  by_cases hfull : s.vgaWidth.val ≤ s.column
  · rw [if_pos hfull, if_pos hfull]
    by_cases hline : s.line < s.vgaHeight.val - 1
    · rw [if_pos hline, if_pos hline]
      exact ⟨rfl, rfl⟩
    · rw [if_neg hline, if_neg hline]
      exact ⟨s.scrollUp_keeps.line, rfl⟩
  · rw [if_neg hfull, if_neg hfull]
    exact ⟨rfl, rfl⟩

theorem Screen.wrapLine_cursor (s : Screen) : s.wrapLine.cursor = s.target := by
  rw [Screen.cursor, Screen.target, s.wrapLine_landing.1, s.wrapLine_landing.2,
    s.wrapLine_sameMode.vgaWidth]

/-- The cells of a tab, from a column of the line on. -/
theorem Screen.tabCells_vga (n : ℕ) (hcolumn : s.column ≤ s.vgaWidth.val) (i : ℕ) :
    (s.tabCells n).vga i =
      if s.cursor ≤ i ∧ i < s.line * s.vgaWidth.val + min (s.column + n) s.vgaWidth.val then s.blank
      else s.vga i := by
  induction n generalizing s with
  | zero =>
      rw [if_neg (by unfold Screen.cursor; omega)]
      rfl
  | succ n ih =>
      rw [Screen.tabCells]
      by_cases hroom : s.column < s.vgaWidth.val
      · have hnext := ih (s := s.advance s.blank) hroom
        have hcursor : (s.advance s.blank).cursor = s.cursor + 1 := rfl
        have hline : (s.advance s.blank).line * (s.advance s.blank).vgaWidth.val +
            min ((s.advance s.blank).column + n) (s.advance s.blank).vgaWidth.val =
            s.line * s.vgaWidth.val + min (s.column + (n + 1)) s.vgaWidth.val := by
          rw [Nat.add_comm n, ← Nat.add_assoc]
          rfl
        have hblank : (s.advance s.blank).blank = s.blank := rfl
        have hstore : (s.advance s.blank).vga i = if i = s.cursor then s.blank else s.vga i :=
          s.store_vga _ _ i
        rw [if_pos hroom, hnext, hcursor, hline, hblank, hstore]
        have hend : s.cursor < s.line * s.vgaWidth.val + min (s.column + (n + 1)) s.vgaWidth.val := by
          unfold Screen.cursor
          omega
        by_cases hi : i = s.cursor
        · rw [if_neg (by omega), if_pos hi, if_pos (by omega)]
        · rw [if_neg hi]
          exact if_congr (by omega) rfl rfl
      · rw [if_neg hroom, if_neg (by unfold Screen.cursor; omega)]

/-- An erased cell. -/
theorem Screen.backspace_vga (s : Screen) (i : ℕ) : s.backspace.vga i =
    if 0 < s.cursor ∧ i = s.cursor - 1 then s.currColor.shows 0x20 else s.vga i := by
  have hwidth := s.vgaWidth.pos
  have hstore (t : Screen) (hvga : t.vga = s.vga) (hcolor : t.currColor = s.currColor)
      (hcursor : t.cursor = s.cursor - 1) (hpos : 0 < s.cursor) : (t.store t.cursor t.blank).vga i =
        if 0 < s.cursor ∧ i = s.cursor - 1 then s.currColor.shows 0x20 else s.vga i := by
    rw [t.store_vga, t.blank_eq, hcolor, hvga, hcursor]
    exact if_congr (and_iff_right hpos).symm rfl rfl
  rw [Screen.backspace]
  dsimp only
  by_cases hstart : s.column = 0 ∧ s.line ≠ 0
  · obtain ⟨line, hline⟩ := Nat.exists_eq_succ_of_ne_zero hstart.2
    have hrow := Nat.succ_mul line s.vgaWidth.val
    have hcursor : s.cursor = line * s.vgaWidth.val + s.vgaWidth.val := by
      rw [Screen.cursor, hstart.1, hline, hrow, Nat.add_zero]
    rw [if_pos hstart, if_pos hwidth]
    refine hstore { s with line := s.line - 1, column := s.vgaWidth.val - 1 } rfl rfl ?_ (by omega)
    rw [hcursor, Screen.cursor]
    dsimp only
    rw [hline, Nat.succ_sub_one]
    omega
  · rw [if_neg hstart]
    by_cases hcolumn : 0 < s.column
    · rw [if_pos hcolumn]
      refine hstore { s with column := s.column - 1 } rfl rfl ?_ (by unfold Screen.cursor; omega)
      unfold Screen.cursor
      dsimp only
      omega
    · have hline : s.line = 0 := by
        by_contra hne
        exact hstart ⟨by omega, hne⟩
      have hcursor : s.cursor = 0 := by
        rw [Screen.cursor, hline, Nat.zero_mul]
        omega
      rw [if_neg hcolumn, if_neg (by omega)]

/-- **What a character leaves**, cell by cell: what it should, but for its own cell. -/
theorem Screen.put_vga (s : Screen) (c : UInt8) (i : ℕ) : (s.put c).vga i =
    if c ≠ 0x08 ∧ c ≠ 0x09 ∧ c ≠ 0x0A ∧ c ≠ 0x0D ∧ i = s.target then s.currColor.cell c
    else s.painted c i := by
  rw [Screen.put, Screen.painted]
  by_cases hfeed : c = 0x0A
  · rw [if_pos hfeed, if_neg (fun h => h.2.2.1 hfeed), if_neg (by rw [hfeed]; decide),
      if_neg (by rw [hfeed]; decide), if_pos (Or.inl hfeed), hfeed, s.newLine_vga]
  rw [if_neg hfeed]
  by_cases hreturn : c = 0x0D
  · have hmoved : s.moved c i = s.vga i := if_neg fun h => h.1.elim hfeed fun h => h.1 hreturn
    rw [if_pos hreturn, if_neg (fun h => h.2.2.2.1 hreturn), if_neg (by rw [hreturn]; decide),
      if_neg (by rw [hreturn]; decide), if_pos (Or.inr hreturn), hmoved]
  rw [if_neg hreturn]
  by_cases hback : c = 0x08
  · rw [if_pos hback, if_neg (fun h => h.1 hback), if_pos hback, s.backspace_vga]
  have hwrap := s.wrapLine_vga ⟨hfeed, hreturn, hback⟩
  have hcolor := s.wrapLine_sameMode.currColor
  rw [if_neg hback, if_neg hback]
  by_cases htab : c = 0x09
  · have hend : s.wrapLine.line * s.wrapLine.vgaWidth.val +
        min (s.wrapLine.column + (4 - s.wrapLine.column % 4)) s.wrapLine.vgaWidth.val =
        s.tabEnd := by
      rw [Screen.tabEnd, s.wrapLine_landing.1, s.wrapLine_landing.2, s.wrapLine_sameMode.vgaWidth]
    rw [if_pos htab, if_neg (fun h => h.2.1 htab), if_pos htab, Screen.tab,
      Screen.tabCells_vga _ (Nat.le_of_lt s.wrapLine_column_lt), hend, s.wrapLine_cursor,
      Screen.blank_eq, hcolor, hwrap]
  · have hcontrol : ¬ (c = 0x0A ∨ c = 0x0D) := fun h => h.elim hfeed hreturn
    have hglyph : (s.glyph c).vga i =
        if i = s.target then s.currColor.cell c else s.moved c i := by
      rw [← s.wrapLine_cursor, ← hcolor, ← hwrap]
      exact Screen.store_vga ..
    rw [if_neg htab, if_neg htab, if_neg hcontrol, hglyph]
    by_cases hi : i = s.target
    · rw [if_pos hi, if_pos ⟨hback, htab, hfeed, hreturn, hi⟩]
    · rw [if_neg hi, if_neg hi, if_neg fun h => hi h.2.2.2.2]

/-- A character leaves what it should exactly when it keeps the attribute. -/
theorem Screen.put_painted_iff (s : Screen) (c : UInt8) :
    (∀ i, (s.put c).vga i = s.painted c i) ↔ s.currColor.Keeps c := by
  by_cases hglyph : c ≠ 0x08 ∧ c ≠ 0x09 ∧ c ≠ 0x0A ∧ c ≠ 0x0D
  · have hown : s.painted c s.target = s.currColor.shows c := by
      rw [Screen.painted, if_neg hglyph.1, if_neg hglyph.2.1,
        if_neg fun h => h.elim hglyph.2.2.1 hglyph.2.2.2, if_pos rfl]
    rw [← s.currColor.cell_eq_shows_iff]
    constructor
    · intro h
      have hcell := h s.target
      rw [s.put_vga, if_pos ⟨hglyph.1, hglyph.2.1, hglyph.2.2.1, hglyph.2.2.2, rfl⟩, hown] at hcell
      exact hcell
    · intro h i
      rw [s.put_vga]
      by_cases hi : i = s.target
      · rw [if_pos ⟨hglyph.1, hglyph.2.1, hglyph.2.2.1, hglyph.2.2.2, hi⟩, h, hi, hown]
      · rw [if_neg fun h => hi h.2.2.2.2]
  · have hlow : c < 0x80 := by
      by_contra hhigh
      refine hglyph ⟨?_, ?_, ?_, ?_⟩ <;> rintro rfl <;> exact hhigh (by decide)
    refine iff_of_true (fun i => ?_) (Or.inl hlow)
    rw [s.put_vga, if_neg fun h => hglyph ⟨h.1, h.2.1, h.2.2.1, h.2.2.2.1⟩]

/-! ## Every run -/

/-- A text leaves what it should exactly when each of its characters keeps the attribute. -/
theorem Screen.paintsText_iff (s : Screen) (text : List UInt8) :
    s.PaintsText text ↔ ∀ c ∈ text, s.currColor.Keeps c := by
  induction text generalizing s with
  | nil => exact iff_of_true trivial nofun
  | cons c rest ih =>
      rw [Screen.PaintsText, s.put_painted_iff, ih, (s.put_sameMode c).currColor,
        List.forall_mem_cons]

theorem ColorCall.run_currColor (call : ColorCall) (s : Screen) :
    (call.run s).currColor = call.colorAfter s.currColor := by
  cases call with
  | print text => exact (s.print_sameMode text).currColor
  | _ => rfl

theorem ColorCall.paints_iff (call : ColorCall) (s : Screen) : call.Paints s ↔
    ∀ text, call = .print text → ∀ c ∈ text.takeWhile (· ≠ 0), s.currColor.Keeps c := by
  cases call with
  | print text =>
      rw [ColorCall.Paints, s.paintsText_iff]
      constructor
      · rintro h _ ⟨⟩
        exact h
      · intro h
        exact h text rfl
  | _ => exact iff_of_true rfl nofun

/-- **When the colours are what was set.** From any screen, every call of a sequence leaves
what it should exactly when each character that is printed keeps the attribute of the colour
current at that moment: it is below `0x80`, or that attribute is `0xFF`. -/
theorem paintsAll_iff (s : Screen) (calls : List ColorCall) :
    PaintsAll s calls ↔ KeepsAll s.currColor calls := by
  induction calls generalizing s with
  | nil => exact Iff.rfl
  | cons call calls ih =>
      rw [PaintsAll, KeepsAll, call.paints_iff, ih, call.run_currColor]

/-- An accented letter of a file, in light grey on black, comes out in white on white. -/
theorem not_paintsAll : ((Screen.boot fun _ => 0).print [0xE9]).vga 0 = 0xFFE9 ∧
    (Screen.boot fun _ => 0).painted 0xE9 0 = 0x07E9 ∧
    ¬ PaintsAll (Screen.boot fun _ => 0) [.print [0xE9]] := by
  generalize hboot : (Screen.boot fun _ => 0) = boot
  have hcolor : boot.currColor = Color.default := by
    rw [← hboot]
    exact (Screen.reset_sameMode _).currColor
  have hline : boot.line = 0 := by rw [← hboot]; rfl
  have hcolumn : boot.column = 0 := by rw [← hboot]; rfl
  have htarget : boot.target = 0 := by
    have hwidth := boot.vgaWidth.pos
    rw [Screen.target, Screen.landing, if_neg (by omega), hline, hcolumn, Nat.zero_mul]
    rfl
  have hpainted : boot.painted 0xE9 0 = 0x07E9 := by
    rw [Screen.painted, if_neg (by decide), if_neg (by decide), if_neg (by decide),
      if_pos htarget.symm, hcolor]
    rfl
  have hprinted : (boot.print [0xE9]).vga 0 = 0xFFE9 := by
    rw [Screen.print_singleton (by decide), boot.put_vga,
      if_pos ⟨by decide, by decide, by decide, by decide, htarget.symm⟩, hcolor]
    rfl
  refine ⟨hprinted, hpainted, fun h => ?_⟩
  have hsame := (h.1 : boot.PaintsText [0xE9]).1 0
  rw [← Screen.print_singleton (by decide), hprinted, hpainted] at hsame
  exact absurd hsame (by decide)

end MasterOS.Console
