/-
# The page of a text

What the console shows of a text that was printed on a cleared page: the last rows of the
text, cut at the width. Each loop of the driver is described cell by cell first, then what
a character does to a page that shows some rows, and from it what a text does.
-/

import MasterOS.Console.Vga
import MasterOS.Math.Rows
import Mathlib.Data.List.Induction
import Mathlib.Data.Nat.Basic
import Mathlib.Order.Basic

namespace MasterOS.Console

open MasterOS.Math

variable {s : Screen}

/-! ## The loops, cell by cell -/

theorem Screen.store_vga (s : Screen) (i : ℕ) (cell : UInt16) (j : ℕ) :
    (s.store i cell).vga j = if j = i then cell else s.vga j :=
  Function.update_apply s.vga i cell j

/-- **The rule for a loop.** Its rounds write cells that follow one another. What a round
writes is known as long as the cells that are not written yet are those of the start. -/
theorem Screen.foldl_vga {body : Screen → ℕ → Screen} {base n : ℕ} {value : ℕ → UInt16}
    (hkeeps : ∀ (s : Screen) x, s.Keeps (body s x))
    (hbody : ∀ x < n, ∀ s' : Screen, s.Keeps s' →
      (∀ i, base + x ≤ i → s'.vga i = s.vga i) → body s' x = s'.store (base + x) (value x))
    (i : ℕ) : ((List.range n).foldl body s).vga i =
      if base ≤ i ∧ i < base + n then value (i - base) else s.vga i := by
  induction n generalizing i with
  | zero =>
      rw [if_neg (by omega)]
      rfl
  | succ n ih =>
      have ih := ih fun x hx => hbody x (Nat.lt_succ_of_lt hx)
      have hunread (i : ℕ) (hi : base + n ≤ i) :
          ((List.range n).foldl body s).vga i = s.vga i := by
        rw [ih, if_neg fun h => Nat.not_le.mpr h.2 hi]
      rw [List.range_succ, List.foldl_append, List.foldl_cons, List.foldl_nil,
        hbody n (Nat.lt_succ_self n) _ (foldl_keeps hkeeps _ s) hunread, store_vga, ih]
      by_cases hi : i = base + n
      · rw [if_pos hi, if_pos (by omega), hi, Nat.add_sub_cancel_left]
      · rw [if_neg hi]
        exact if_congr (by omega) rfl rfl

theorem Screen.Keeps.blank {s' : Screen} (h : s.Keeps s') : s'.blank = s.blank :=
  congrArg (Color.cell · 0x20) h.currColor

theorem Screen.clear_vga (n : ℕ) (s : Screen) (i : ℕ) :
    (s.clear n).vga i = if i < n then s.blank else s.vga i := by
  have hloop := @foldl_vga s (fun s i => s.store i s.blank) 0 n (fun _ => s.blank)
    (fun s _ => s.store_keeps _ _)
    (fun x _ s' hs' _ => by rw [hs'.blank, Nat.zero_add]) i
  rw [Screen.clear, hloop]
  exact if_congr (by omega) rfl rfl

/-- A row is copied from the row below it. -/
theorem Screen.copyRow_vga (y : ℕ) (s : Screen) (i : ℕ) :
    (s.copyRow (y + 1)).vga i =
      if y * s.vgaWidth.val ≤ i ∧ i < (y + 1) * s.vgaWidth.val then s.vga (i + s.vgaWidth.val)
      else s.vga i := by
  have hrow := Nat.add_one_mul y s.vgaWidth.val
  unfold Screen.copyRow
  rw [@foldl_vga s _ (y * s.vgaWidth.val) s.vgaWidth.val
    (fun x => s.vga ((y + 1) * s.vgaWidth.val + x)) (fun s _ => s.store_keeps _ _)]
  · by_cases hi : y * s.vgaWidth.val ≤ i ∧ i < (y + 1) * s.vgaWidth.val
    · rw [if_pos hi, if_pos (by omega)]
      exact congrArg s.vga (by omega)
    · rw [if_neg hi, if_neg (by omega)]
  · intro x _ s' hs' hunread
    rw [hs'.vgaWidth, Nat.add_sub_cancel, hunread _ (by omega)]

/-- The rows are copied from the top down, so that each is read before it is written. -/
theorem Screen.copyRows_vga (s : Screen) (i : ℕ) :
    s.copyRows.vga i =
      if i < (s.vgaHeight.val - 1) * s.vgaWidth.val then s.vga (i + s.vgaWidth.val)
      else s.vga i := by
  unfold Screen.copyRows
  generalize s.vgaHeight.val - 1 = n
  induction n generalizing i with
  | zero =>
      rw [if_neg (by omega)]
      rfl
  | succ n ih =>
      have hkeeps := foldl_keeps (fun (s : Screen) y => s.copyRow_keeps y) (List.range' 1 n) s
      have hrow := Nat.add_one_mul n s.vgaWidth.val
      rw [List.range'_1_concat, List.foldl_append, List.foldl_cons, List.foldl_nil,
        Nat.add_comm 1 n, copyRow_vga, hkeeps.vgaWidth, ih, ih]
      by_cases hi : n * s.vgaWidth.val ≤ i ∧ i < (n + 1) * s.vgaWidth.val
      · rw [if_pos hi, if_neg (by omega), if_pos hi.2]
      · rw [if_neg hi]
        exact if_congr (by omega) rfl rfl

theorem Screen.clearLastRow_vga (s : Screen) (i : ℕ) :
    s.clearLastRow.vga i =
      if (s.vgaHeight.val - 1) * s.vgaWidth.val ≤ i ∧
        i < (s.vgaHeight.val - 1) * s.vgaWidth.val + s.vgaWidth.val then s.blank
      else s.vga i := by
  unfold Screen.clearLastRow
  rw [@foldl_vga s _ ((s.vgaHeight.val - 1) * s.vgaWidth.val) s.vgaWidth.val
    (fun _ => s.blank) (fun s _ => s.store_keeps _ _)]
  intro x _ s' hs' _
  rw [hs'.vgaWidth, hs'.vgaHeight, hs'.blank]

/-- **Scrolling, row by row.** Each row is what the row below it was, and the last one is
blank. -/
theorem Screen.scrollUp_vga {i j : ℕ} (hi : i < s.vgaHeight.val) (hj : j < s.vgaWidth.val) :
    s.scrollUp.vga (i * s.vgaWidth.val + j) =
      if i = s.vgaHeight.val - 1 then s.blank else s.vga ((i + 1) * s.vgaWidth.val + j) := by
  have hkeeps := s.copyRows_keeps
  rw [Screen.scrollUp, clearLastRow_vga, hkeeps.vgaWidth, hkeeps.vgaHeight, hkeeps.blank]
  by_cases hlast : i = s.vgaHeight.val - 1
  · rw [if_pos hlast, if_pos ⟨hlast ▸ Nat.le_add_right _ _, hlast ▸ Nat.add_lt_add_left hj _⟩]
  · have habove : i * s.vgaWidth.val + j < (s.vgaHeight.val - 1) * s.vgaWidth.val :=
      calc i * s.vgaWidth.val + j
        _ < i * s.vgaWidth.val + s.vgaWidth.val := Nat.add_lt_add_left hj _
        _ = (i + 1) * s.vgaWidth.val := (Nat.add_one_mul i _).symm
        _ ≤ (s.vgaHeight.val - 1) * s.vgaWidth.val := Nat.mul_le_mul_right _ (by omega)
    rw [if_neg hlast, if_neg fun h => Nat.not_le.mpr habove h.1, copyRows_vga, if_pos habove,
      Nat.add_one_mul, Nat.add_right_comm]

/-! ## What a page shows -/

/-- The page shows the last of some rows, and the cursor is on the last one. -/
structure Screen.ShowsRows (s : Screen) (rows : List (List UInt8)) : Prop where
  line : s.line = min rows.length s.vgaHeight.val - 1
  cells : ∀ i j, i < s.vgaHeight.val → j < s.vgaWidth.val →
    charByte (s.vga (i * s.vgaWidth.val + j)) = shown 0x20 s.vgaHeight.val rows i j

/-- The page shows some rows, and the cursor is behind the end of the last one. -/
structure Screen.Shows (s : Screen) (rows : List (List UInt8)) : Prop extends
    s.ShowsRows rows where
  column : s.column = (rows.getLast?.getD []).length

@[simp]
theorem Screen.charByte_blank (s : Screen) : charByte s.blank = 0x20 := charByte_cell _ _

/-- A cleared page shows one empty row. -/
theorem Screen.reset_shows (s : Screen) : s.reset.Shows [[]] where
  line := by
    show 0 = min 1 s.reset.vgaHeight.val - 1
    omega
  cells i j hi hj := by
    have hmode := s.reset_sameMode
    rw [hmode.vgaHeight] at hi
    rw [hmode.vgaWidth] at hj
    have hcell : s.reset.vga (i * s.vgaWidth.val + j) = s.blank := by
      show (s.clear _).vga _ = _
      rw [clear_vga, if_pos (cell_lt_page hi hj)]
    rw [hmode.vgaWidth, hcell, charByte_blank, shown_empty]
  column := rfl

/-- **A line feed.** The page shows one more row, an empty one, whether it has to scroll or
not. -/
theorem Screen.ShowsRows.newLine {rows : List (List UInt8)} (h : s.ShowsRows rows)
    (hrows : 0 < rows.length) : s.newLine.Shows (rows ++ [[]]) := by
  have hpos := s.vgaHeight.pos
  have hline := h.line
  have hlength : (rows ++ [([] : List UInt8)]).length = rows.length + 1 := by simp
  have hcolumn : s.newLine.column = ((rows ++ [[]]).getLast?.getD []).length := by
    rw [List.getLast?_concat, newLine_column]
    rfl
  refine ⟨?_, hcolumn⟩
  by_cases hroom : s.line < s.vgaHeight.val - 1
  · have hbelow : rows.length < s.vgaHeight.val := by omega
    rw [Screen.newLine, if_pos hroom]
    constructor
    · show s.line + 1 = min (rows ++ [[]]).length s.vgaHeight.val - 1
      rw [hlength]
      omega
    · intro i j hi hj
      exact (h.cells i j hi hj).trans (shown_concat_of_lt hbelow).symm
  · have hfull : s.vgaHeight.val ≤ rows.length := by omega
    have hkeeps := s.scrollUp_keeps
    rw [Screen.newLine, if_neg hroom]
    constructor
    · show s.scrollUp.line = min (rows ++ [[]]).length s.scrollUp.vgaHeight.val - 1
      rw [hlength, hkeeps.line, hkeeps.vgaHeight]
      omega
    · intro i j hi hj
      replace hi : i < s.scrollUp.vgaHeight.val := hi
      replace hj : j < s.scrollUp.vgaWidth.val := hj
      show charByte (s.scrollUp.vga (i * s.scrollUp.vgaWidth.val + j)) =
        shown 0x20 s.scrollUp.vgaHeight.val (rows ++ [[]]) i j
      rw [hkeeps.vgaHeight] at hi ⊢
      rw [hkeeps.vgaWidth] at hj ⊢
      rw [scrollUp_vga hi hj]
      by_cases hlast : i = s.vgaHeight.val - 1
      · rw [if_pos hlast, hlast, charByte_blank, shown_concat_last hpos hfull]
      · have hnext : i + 1 < s.vgaHeight.val := by omega
        rw [if_neg hlast, h.cells _ _ hnext hj, shown_concat_of_le hfull hnext]

/-- A character where the last row has room. -/
theorem Screen.Shows.advance {above : List (List UInt8)} {last : List UInt8}
    (h : s.Shows (above ++ [last])) (hroom : last.length < s.vgaWidth.val) (c : UInt8) :
    (s.advance (s.currColor.cell c)).Shows (above ++ [last ++ [c]]) := by
  have hpos := s.vgaHeight.pos
  have hline := h.line
  have hcolumn : s.column = last.length := by
    rw [h.column, List.getLast?_concat]
    rfl
  rw [List.length_append, List.length_singleton] at hline
  have hlength : (above ++ [last ++ [c]]).length = above.length + 1 := by simp
  constructor
  · constructor
    · rw [hlength]
      exact hline
    · intro i j hi hj
      show charByte ((s.store s.cursor (s.currColor.cell c)).vga (i * s.vgaWidth.val + j)) =
        shown 0x20 s.vgaHeight.val (above ++ [last ++ [c]]) i j
      have hcursor : i * s.vgaWidth.val + j = s.cursor ↔
          i = min (above.length + 1) s.vgaHeight.val - 1 ∧ j = last.length := by
        rw [Screen.cursor, hcolumn, hline]
        exact cell_inj hj hroom
      rw [store_vga, shown_type hpos]
      by_cases hhere : i * s.vgaWidth.val + j = s.cursor
      · rw [if_pos hhere, if_pos (hcursor.mp hhere), charByte_cell]
      · rw [if_neg hhere, if_neg fun hat => hhere (hcursor.mpr hat)]
        exact h.cells i j hi hj
  · show s.column + 1 = _
    rw [hcolumn, List.getLast?_concat, Option.getD_some, List.length_append]
    rfl

/-! ## Texts -/

/-- A printable character. -/
structure Printable where
  val : UInt8
  low : 0x20 ≤ val
  high : val ≤ 0x7E

/-- The pieces of a text: printable characters, and line feeds with or without a carriage
return before them. -/
inductive Piece
  | char (c : Printable)
  | feed (cr : Bool)

/-- The bytes of a piece. -/
def Piece.bytes : Piece → List UInt8
  | .char c => [c.val]
  | .feed false => [0x0A]
  | .feed true => [0x0D, 0x0A]

/-- A piece as a character or a line feed. -/
def Piece.toChar : Piece → Option UInt8
  | .char c => some c.val
  | .feed _ => none

/-- The rows of a text at a width. -/
def textRows (width : Extent) (text : List Piece) : List (List UInt8) :=
  rowsOf width.val (text.map Piece.toChar)

theorem Printable.put (c : Printable) (s : Screen) : s.put c.val = s.glyph c.val := by
  have hlow : (0x20 : UInt8).toNat ≤ c.val.toNat := UInt8.le_iff_toNat_le.mp c.low
  have hne (d : UInt8) (hd : d.toNat < 0x20) : c.val ≠ d := by
    intro h
    rw [h] at hlow
    exact absurd hlow (Nat.not_le.mpr hd)
  rw [Screen.put, if_neg (hne _ (by decide)), if_neg (hne _ (by decide)),
    if_neg (hne _ (by decide)), if_neg (hne _ (by decide))]

/-- A piece adds what it adds to the rows of a text to the rows the page shows. -/
theorem Screen.Shows.piece {text : List Piece} (h : s.Shows (textRows s.vgaWidth text))
    (p : Piece) : (p.bytes.foldl Screen.put s).Shows (textRows s.vgaWidth (text ++ [p])) := by
  obtain ⟨above, last, hrows, hlast, hfeed, hroom, hfull⟩ :=
    exists_rowsOf s.vgaWidth.pos (text.map Piece.toChar)
  rw [textRows, hrows] at h
  have hcolumn : s.column = last.length := by
    rw [h.column, List.getLast?_concat]
    rfl
  have hlines : 0 < (above ++ [last]).length := by simp
  rw [textRows, List.map_append, List.map_singleton]
  cases p with
  | feed cr =>
      rw [show Piece.toChar (.feed cr) = none from rfl, hfeed,
        show above ++ [last, []] = (above ++ [last]) ++ [[]] by simp]
      cases cr with
      | false => exact h.toShowsRows.newLine hlines
      | true =>
          have hreturn : ({ s with column := 0 } : Screen).ShowsRows (above ++ [last]) :=
            ⟨h.line, h.cells⟩
          exact hreturn.newLine hlines
  | char c =>
      rw [show Piece.toChar (.char c) = some c.val from rfl]
      show (s.put c.val).Shows _
      rw [c.put, Screen.glyph, Screen.wrapLine]
      rcases hlast.lt_or_eq with hlt | heq
      · rw [if_neg (by omega), hroom hlt]
        exact h.advance hlt c.val
      · rw [if_pos (by omega), hfull heq,
          show above ++ [last, [c.val]] = (above ++ [last]) ++ [[] ++ [c.val]] by simp]
        exact (h.toShowsRows.newLine hlines).advance s.newLine.vgaWidth.pos c.val

/-- A text, one piece after the other. -/
theorem Screen.Shows.text {start : Screen} (h : start.Shows [[]]) (text : List Piece) :
    ((text.flatMap Piece.bytes).foldl Screen.put start).Shows (textRows start.vgaWidth text) := by
  induction text using List.reverseRecOn with
  | nil =>
      have hrows : textRows start.vgaWidth [] = [[]] :=
        (List.flatMap_singleton _ _).trans (wrap_of_le (Nat.zero_le _))
      rw [hrows]
      exact h
  | append_singleton text p ih =>
      have hwidth := (foldl_put_sameMode (text.flatMap Piece.bytes) start).vgaWidth
      rw [List.flatMap_append, List.foldl_append, List.flatMap_singleton, ← hwidth]
      rw [← hwidth] at ih
      exact ih.piece p

/-- Any number of calls print what one call prints. -/
theorem Screen.foldl_print {prints : List (List UInt8)} (h : ∀ c ∈ prints.flatten, c ≠ 0)
    (s : Screen) : prints.foldl Screen.print s = prints.flatten.foldl Screen.put s := by
  induction prints generalizing s with
  | nil => rfl
  | cons text rest ih =>
      have htext (c : UInt8) (hc : c ∈ text) : c ≠ 0 :=
        h c (List.mem_flatten.mpr ⟨text, List.mem_cons_self, hc⟩)
      have hrest (c : UInt8) (hc : c ∈ rest.flatten) : c ≠ 0 := by
        apply h c
        rw [List.flatten_cons]
        exact List.mem_append_right text hc
      rw [List.foldl_cons, ih hrest, print_eq_foldl htext, List.flatten_cons, List.foldl_append]

theorem Piece.bytes_ne_zero {text : List Piece} {c : UInt8} (h : c ∈ text.flatMap Piece.bytes) :
    c ≠ 0 := by
  obtain ⟨p, _, hc⟩ := List.mem_flatMap.mp h
  cases p with
  | char d =>
      rw [Piece.bytes, List.mem_singleton] at hc
      rw [hc]
      intro hzero
      exact absurd (hzero ▸ d.low) (by decide)
  | feed cr =>
      cases cr with
      | false =>
          rw [Piece.bytes, List.mem_singleton] at hc
          rw [hc]
          decide
      | true =>
          rw [Piece.bytes, List.mem_cons, List.mem_singleton] at hc
          rcases hc with rfl | rfl <;> decide

/-- **A text printed on a cleared page.** However it is split over calls, the page shows the
last of its rows, in order and padded with blanks, and the cursor is behind the last row. -/
theorem page_of_text (s : Screen) (text : List Piece) (prints : List (List UInt8))
    (hsplit : prints.flatten = text.flatMap Piece.bytes) :
    let page := prints.foldl Screen.print s.reset
    let rows := textRows s.vgaWidth text
    (∀ i j, i < s.vgaHeight.val → j < s.vgaWidth.val →
      charByte (page.vga (i * s.vgaWidth.val + j)) =
        ((rows.drop (rows.length - s.vgaHeight.val))[i]?.getD [])[j]?.getD 0x20) ∧
      page.line = min rows.length s.vgaHeight.val - 1 ∧
      page.column = (rows.getLast?.getD []).length := by
  intro page rows
  have hmode : s.SameMode page :=
    s.reset_sameMode.trans (List.foldlRecOn prints Screen.print (.refl s.reset)
      fun s' hs' text _ => hs'.trans (s'.print_sameMode text))
  have hprint : page = (text.flatMap Piece.bytes).foldl Screen.put s.reset := by
    rw [← hsplit]
    apply Screen.foldl_print
    rw [hsplit]
    exact fun c => Piece.bytes_ne_zero
  have hshows : page.Shows rows := by
    have htext := s.reset_shows.text text
    rw [s.reset_sameMode.vgaWidth] at htext
    rw [hprint]
    exact htext
  refine ⟨fun i j hi hj => ?_, ?_, hshows.column⟩
  · rw [← hmode.vgaHeight] at hi ⊢
    rw [← hmode.vgaWidth] at hj ⊢
    exact hshows.cells i j hi hj
  · rw [← hmode.vgaHeight]
    exact hshows.line

/-- A screen of two lines of three columns. -/
def tinyScreen : Screen where
  column := 0
  line := 0
  currColor := .default
  vgaWidth := ⟨3, by decide, by decide⟩
  vgaHeight := ⟨2, by decide, by decide⟩
  vga _ := 0
  written := []

/-- Four letters, a line feed and another letter. -/
def tinyText : List Piece :=
  [.char ⟨0x61, by decide, by decide⟩, .char ⟨0x62, by decide, by decide⟩,
    .char ⟨0x63, by decide, by decide⟩, .char ⟨0x64, by decide, by decide⟩, .feed true,
    .char ⟨0x65, by decide, by decide⟩]

theorem textRows_tinyText :
    textRows tinyScreen.vgaWidth tinyText = [[0x61, 0x62, 0x63], [0x64], [0x65]] := by
  have hfirst : wrap 3 [(0x61 : UInt8), 0x62, 0x63, 0x64] = [[0x61, 0x62, 0x63], [0x64]] := by
    rw [wrap_of_lt (by decide) (by decide)]
    exact congrArg _ (wrap_of_le (by decide))
  have hsecond : wrap 3 [(0x65 : UInt8)] = [[0x65]] := wrap_of_le (by decide)
  have hlines : cutLines (tinyText.map Piece.toChar) = [[0x61, 0x62, 0x63, 0x64], [0x65]] := rfl
  rw [textRows, rowsOf, hlines, List.flatMap_cons, List.flatMap_singleton]
  exact congrArg₂ (· ++ ·) hfirst hsecond

/-- The first row is gone, the two last ones fill the page. -/
theorem page_of_tinyText :
    let page := [[0x61, 0x62], [0x63, 0x64, 0x0D], [0x0A, 0x65]].foldl Screen.print
      tinyScreen.reset
    charByte (page.vga 0) = 0x64 ∧ charByte (page.vga 3) = 0x65 ∧ page.line = 1 ∧
      page.column = 1 := by
  intro page
  obtain ⟨hcells, hline, hcolumn⟩ := page_of_text tinyScreen tinyText
    [[0x61, 0x62], [0x63, 0x64, 0x0D], [0x0A, 0x65]] rfl
  rw [textRows_tinyText] at hcells hline hcolumn
  exact ⟨hcells 0 0 (by decide) (by decide), hcells 1 0 (by decide) (by decide), hline, hcolumn⟩

end MasterOS.Console
