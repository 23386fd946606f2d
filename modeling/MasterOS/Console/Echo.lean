/-
# The echo of the line being edited

Whether the screen shows the line in the buffer. Every key is echoed when it is typed: a
character is printed, a backspace blanks the last cell and steps back onto it. The line
could as well be printed anew behind the prompt. The two agree as long as each character
that is taken back was one cell wide. A tab may be wider, and a backspace behind it steps
back one cell all the same.

While nothing scrolls the page is a strip of cells with a position on it, and both ways are
compared there.
-/

import MasterOS.Console.Editing
import MasterOS.Console.Keyboard
import MasterOS.Console.OnScreen

namespace MasterOS.Console

/-! ## A strip of cells -/

/-- The characters of the cells, one behind the other, and the place of the next one. -/
@[ext]
structure Strip where
  pos : ℕ
  cells : ℕ → UInt8

/-- The number of cells a character takes at a place of a page that is `width` wide. A tab
goes to the next multiple of four, or to the end of the line. -/
def charWidth (width pos : ℕ) (c : UInt8) : ℕ :=
  if c = 0x09 then min (4 - pos % width % 4) (width - pos % width) else 1

/-- What the cells of a character show. -/
def shownAs (c : UInt8) : UInt8 := if c = 0x09 then 0x20 else c

/-- The next `n` cells are written, all the same. -/
def Strip.fill (n : ℕ) (d : UInt8) (t : Strip) : Strip where
  pos := t.pos + n
  cells i := if t.pos ≤ i ∧ i < t.pos + n then d else t.cells i

/-- A character is printed. -/
def Strip.put (width : ℕ) (t : Strip) (c : UInt8) : Strip :=
  t.fill (charWidth width t.pos c) (shownAs c)

/-- The cell before the place is blanked and becomes the place. -/
def Strip.erase (t : Strip) : Strip where
  pos := t.pos - 1
  cells := Function.update t.cells (t.pos - 1) 0x20

/-- Nothing is behind the place. -/
def Strip.BlankBehind (t : Strip) : Prop := ∀ i, t.pos ≤ i → t.cells i = 0x20

variable {width : ℕ} {t : Strip} {c : UInt8}

theorem charWidth_pos (hwidth : 0 < width) (pos : ℕ) (c : UInt8) :
    0 < charWidth width pos c := by
  have hmod := Nat.mod_lt pos hwidth
  unfold charWidth
  split_ifs <;> omega

theorem Strip.fill_zero (d : UInt8) (t : Strip) : t.fill 0 d = t := by
  apply Strip.ext
  · rfl
  · funext i
    exact if_neg (by omega)

/-- The first cell, and then the others. -/
theorem Strip.fill_succ (n : ℕ) (d : UInt8) (t : Strip) :
    t.fill (n + 1) d = (t.fill 1 d).fill n d := by
  apply Strip.ext
  · show t.pos + (n + 1) = t.pos + 1 + n
    omega
  · funext i
    show (if _ then _ else _) = if _ then _ else if _ then _ else _
    by_cases hi : t.pos ≤ i ∧ i < t.pos + (n + 1)
    · rw [if_pos hi]
      by_cases hfirst : i = t.pos
      · rw [if_neg (by simp only [Strip.fill]; omega), if_pos (by omega)]
      · rw [if_pos (by simp only [Strip.fill]; omega)]
    · rw [if_neg hi, if_neg (by simp only [Strip.fill]; omega), if_neg (by omega)]

theorem Strip.BlankBehind.put (h : t.BlankBehind) : (t.put width c).BlankBehind := by
  intro i hi
  have hpos : t.pos + charWidth width t.pos c ≤ i := hi
  show (if _ then _ else _) = _
  rw [if_neg fun hin => Nat.not_lt.mpr hpos hin.2]
  exact h i ((Nat.le_add_right _ _).trans hpos)

/-- **A character of one cell is taken back without a trace.** -/
theorem Strip.BlankBehind.erase_put (h : t.BlankBehind) (hone : charWidth width t.pos c = 1) :
    (t.put width c).erase = t := by
  apply Strip.ext
  · show t.pos + charWidth width t.pos c - 1 = t.pos
    rw [hone, Nat.add_sub_cancel]
  · funext i
    show Function.update (t.put width c).cells (t.pos + charWidth width t.pos c - 1) 0x20 i = _
    rw [hone, Nat.add_sub_cancel, Function.update_apply]
    by_cases hi : i = t.pos
    · rw [if_pos hi, hi, h t.pos le_rfl]
    · rw [if_neg hi]
      show (if _ then _ else _) = _
      rw [if_neg (by rw [hone]; omega)]

/-! ## The page as a strip -/

/-- Printing the character scrolls the page. -/
def Screen.PutScrolls (s : Screen) (c : UInt8) : Prop :=
  (c = 0x0A ∨ c ≠ 0x0D ∧ c ≠ 0x08 ∧ s.vgaWidth.val ≤ s.column) ∧
    ¬ s.line < s.vgaHeight.val - 1

/-- A character that a key other than Enter is forwarded as. -/
def TypedChar (c : UInt8) : Prop := c = 0x08 ∨ c = 0x09 ∨ 0x20 ≤ c ∧ c ≤ 0x7E

instance (c : UInt8) : Decidable (TypedChar c) := by unfold TypedChar; infer_instance

/-- The keyboard forwards such characters and Enter. -/
theorem typedChar_of_keybHandler {mods : Modifiers} {first second : UInt8}
    (h : (keybHandler mods first second).2 = some c) : c = 0x0A ∨ TypedChar c := by
  have htable (table : List ℕ)
      (hall : ∀ key ∈ table, key < 0x80 → UInt8.ofNat key = 0x0A ∨ TypedChar (UInt8.ofNat key))
      (scanCode : ℕ) (hkey : table[scanCode]?.getD unknown < 0x80) :
      UInt8.ofNat (table[scanCode]?.getD unknown) = 0x0A ∨
        TypedChar (UInt8.ofNat (table[scanCode]?.getD unknown)) := by
    cases hentry : table[scanCode]? with
    | none =>
        rw [hentry] at hkey
        exact absurd hkey (by decide)
    | some key =>
        rw [hentry] at hkey
        exact hall key (List.mem_of_getElem? hentry) hkey
  have hmods (scanCode : ℕ) (hkey : mods.key scanCode < 0x80) :
      UInt8.ofNat (mods.key scanCode) = 0x0A ∨ TypedChar (UInt8.ofNat (mods.key scanCode)) := by
    unfold Modifiers.key at hkey ⊢
    split_ifs at hkey ⊢
    · exact htable uppercase (by decide +kernel) scanCode hkey
    · exact htable lowercase (by decide +kernel) scanCode hkey
  unfold keybHandler at h
  dsimp only at h
  split_ifs at h with _ _ _ hforward
  obtain rfl := Option.some.inj h
  apply hmods
  rcases hforward.2 with hlow | hback | henter
  · exact hlow
  · rw [hback]
    decide
  · rw [henter]
    decide

/-- The page holds a strip. -/
structure Screen.Tracks (s : Screen) (t : Strip) : Prop where
  line : s.line < s.vgaHeight.val
  column : s.column ≤ s.vgaWidth.val
  cursor : s.cursor = t.pos
  cells : ∀ i < s.vgaWidth.val * s.vgaHeight.val, charByte (s.vga i) = t.cells i

variable {s : Screen}

/-- The wrap of a full line does not move the cursor along the strip. -/
theorem Screen.Tracks.wrapLine (h : s.Tracks t)
    (hroom : s.vgaWidth.val ≤ s.column → s.line < s.vgaHeight.val - 1) :
    s.wrapLine.Tracks t ∧ s.wrapLine.column = t.pos % s.vgaWidth.val := by
  have hcursor : s.line * s.vgaWidth.val + s.column = t.pos := h.cursor
  by_cases hfull : s.vgaWidth.val ≤ s.column
  · have heq : s.column = s.vgaWidth.val := Nat.le_antisymm h.column hfull
    have hline := hroom hfull
    have hwrap : s.wrapLine = { s with line := s.line + 1, column := 0 } := by
      rw [Screen.wrapLine, if_pos hfull, Screen.newLine, if_pos hline]
    have hpos' : t.pos = (s.line + 1) * s.vgaWidth.val := by
      rw [← hcursor, heq, Nat.add_one_mul]
    rw [hwrap]
    refine ⟨⟨Nat.add_lt_of_lt_sub hline, Nat.zero_le _, hpos'.symm, h.cells⟩, ?_⟩
    show 0 = t.pos % s.vgaWidth.val
    rw [hpos', Nat.mul_mod_left]
  · have hwrap : s.wrapLine = s := by rw [Screen.wrapLine, if_neg hfull]
    rw [hwrap]
    refine ⟨h, ?_⟩
    rw [← hcursor, Nat.mul_comm, Nat.mul_add_mod, Nat.mod_eq_of_lt (Nat.not_le.mp hfull)]

/-- A store at the cursor fills a cell. -/
theorem Screen.Tracks.advance (h : s.Tracks t) (hcolumn : s.column < s.vgaWidth.val)
    (d : UInt8) : (s.advance (s.currColor.cell d)).Tracks (t.fill 1 d) where
  line := h.line
  column := hcolumn
  cursor := congrArg (· + 1) h.cursor
  cells := by
    intro i hi
    show charByte (Function.update s.vga s.cursor (s.currColor.cell d) i) =
      if t.pos ≤ i ∧ i < t.pos + 1 then d else t.cells i
    rw [h.cursor, Function.update_apply]
    by_cases hhere : i = t.pos
    · rw [if_pos hhere, if_pos (by omega)]
      exact charByte_cell _ d
    · rw [if_neg hhere, if_neg (by omega)]
      exact h.cells i hi

/-- The cells of a tab, as far as the line has room. -/
theorem Screen.Tracks.tabCells (h : s.Tracks t) (n : ℕ) :
    (s.tabCells n).Tracks (t.fill (min n (s.vgaWidth.val - s.column)) 0x20) := by
  induction n generalizing s t with
  | zero =>
      rw [Nat.zero_min, Strip.fill_zero]
      exact h
  | succ n ih =>
      rw [Screen.tabCells]
      by_cases hroom : s.column < s.vgaWidth.val
      · have hnext : min (n + 1) (s.vgaWidth.val - s.column) =
            min n (s.vgaWidth.val - (s.column + 1)) + 1 := by omega
        rw [if_pos hroom, hnext, Strip.fill_succ]
        exact ih (h.advance hroom 0x20)
      · have hnone : min (n + 1) (s.vgaWidth.val - s.column) = 0 := by omega
        rw [if_neg hroom, hnone, Strip.fill_zero]
        exact h

theorem TypedChar.ne_feed (hc : TypedChar c) : c ≠ 0x0A := by
  rintro rfl
  exact absurd hc (by decide)

theorem TypedChar.ne_return (hc : TypedChar c) : c ≠ 0x0D := by
  rintro rfl
  exact absurd hc (by decide)

theorem TypedChar.ne_zero (hc : TypedChar c) : c ≠ 0 := by
  rintro rfl
  exact absurd hc (by decide)

/-- **A character is printed on the strip**, if that does not scroll the page. -/
theorem Screen.Tracks.put (h : s.Tracks t) (hc : TypedChar c) (hback : c ≠ 0x08)
    (hscroll : ¬ s.PutScrolls c) : (s.put c).Tracks (t.put s.vgaWidth.val c) := by
  obtain ⟨hwrap, hcolumn⟩ := h.wrapLine fun hfull =>
    not_not.mp fun hline => hscroll ⟨Or.inr ⟨hc.ne_return, hback, hfull⟩, hline⟩
  have hwidth := s.wrapLine_sameMode.vgaWidth
  rw [Screen.put, if_neg hc.ne_feed, if_neg hc.ne_return, if_neg hback]
  by_cases htab : c = 0x09
  · rw [if_pos htab, Strip.put, charWidth, shownAs, if_pos htab, if_pos htab, ← hcolumn,
      ← hwidth]
    exact hwrap.tabCells _
  · rw [if_neg htab, Strip.put, charWidth, shownAs, if_neg htab, if_neg htab]
    exact hwrap.advance s.wrapLine_column_lt c

/-- The cursor steps back to a cell, and blanks it. -/
theorem Screen.Tracks.stepBack (h : s.Tracks t) {line column : ℕ}
    (hline : line < s.vgaHeight.val) (hcolumn : column < s.vgaWidth.val)
    (hpos : line * s.vgaWidth.val + column = t.pos - 1) :
    (({ s with line := line, column := column } : Screen).store
      (line * s.vgaWidth.val + column) s.blank).Tracks t.erase where
  line := hline
  column := hcolumn.le
  cursor := hpos
  cells := by
    intro i hi
    show charByte (Function.update s.vga (line * s.vgaWidth.val + column) s.blank i) =
      Function.update t.cells (t.pos - 1) 0x20 i
    rw [hpos, Function.update_apply, Function.update_apply]
    split_ifs
    · exact charByte_cell _ _
    · exact h.cells i hi

/-- **A backspace on the strip**, unless the cursor is at its start. -/
theorem Screen.Tracks.backspace (h : s.Tracks t) (hpos : 0 < t.pos) :
    s.backspace.Tracks t.erase := by
  have hcursor : s.line * s.vgaWidth.val + s.column = t.pos := h.cursor
  have hwidth := s.vgaWidth.pos
  unfold Screen.backspace
  by_cases hstart : s.column = 0 ∧ s.line ≠ 0
  · simp only [if_pos hstart, if_pos hwidth]
    obtain ⟨above, habove⟩ := Nat.exists_eq_succ_of_ne_zero hstart.2
    apply h.stepBack
    · exact (Nat.sub_le _ _).trans_lt h.line
    · exact Nat.sub_lt hwidth Nat.one_pos
    · rw [habove, Nat.succ_mul] at hcursor
      rw [habove, Nat.succ_sub_one]
      omega
  · simp only [if_neg hstart]
    have hcolumn : 0 < s.column := by
      apply Nat.pos_of_ne_zero
      intro hzero
      have hline : s.line = 0 := not_not.mp fun hne => hstart ⟨hzero, hne⟩
      rw [hzero, hline, Nat.zero_mul] at hcursor
      omega
    rw [if_pos hcolumn]
    apply h.stepBack h.line
    · exact (Nat.sub_lt hcolumn Nat.one_pos).trans_le h.column
    · show s.line * s.vgaWidth.val + (s.column - 1) = t.pos - 1
      omega

/-- The end of the strip is the end of the last line. -/
theorem Screen.Tracks.atEnd_iff (h : s.Tracks t) :
    (s.vgaWidth.val ≤ s.column ∧ ¬ s.line < s.vgaHeight.val - 1) ↔
      t.pos = s.vgaWidth.val * s.vgaHeight.val := by
  have hcursor : s.line * s.vgaWidth.val + s.column = t.pos := h.cursor
  have hcolumn := h.column
  have hline := h.line
  constructor
  · rintro ⟨hfull, hlast⟩
    have hline : s.line + 1 = s.vgaHeight.val := by omega
    have hfull : s.column = s.vgaWidth.val := Nat.le_antisymm hcolumn hfull
    rw [← hcursor, hfull, ← Nat.add_one_mul, hline, Nat.mul_comm]
  · intro hend
    have hpage : s.vgaWidth.val * s.vgaHeight.val ≤ s.line * s.vgaWidth.val + s.vgaWidth.val := by
      rw [← hend, ← hcursor]
      exact Nat.add_le_add_left hcolumn _
    rw [← Nat.add_one_mul, Nat.mul_comm] at hpage
    have hlast : s.vgaHeight.val ≤ s.line + 1 := Nat.le_of_mul_le_mul_right hpage s.vgaWidth.pos
    have hlast : s.line + 1 = s.vgaHeight.val := Nat.le_antisymm hline hlast
    rw [← hlast, Nat.mul_comm, Nat.add_one_mul, ← hcursor] at hend
    omega

theorem Screen.Tracks.pos_le (h : s.Tracks t) :
    t.pos ≤ s.vgaWidth.val * s.vgaHeight.val := by
  have hcursor : s.line * s.vgaWidth.val + s.column = t.pos := h.cursor
  calc t.pos
    _ = s.line * s.vgaWidth.val + s.column := hcursor.symm
    _ ≤ s.line * s.vgaWidth.val + s.vgaWidth.val := Nat.add_le_add_left h.column _
    _ = (s.line + 1) * s.vgaWidth.val := (Nat.add_one_mul _ _).symm
    _ ≤ s.vgaHeight.val * s.vgaWidth.val := Nat.mul_le_mul_right _ h.line
    _ = s.vgaWidth.val * s.vgaHeight.val := Nat.mul_comm _ _

/-- A character scrolls the page only from the end of the strip. -/
theorem Screen.Tracks.putScrolls_iff (h : s.Tracks t) (hc : TypedChar c) (hback : c ≠ 0x08) :
    s.PutScrolls c ↔ t.pos = s.vgaWidth.val * s.vgaHeight.val := by
  rw [← h.atEnd_iff]
  constructor
  · rintro ⟨hfeed | ⟨_, _, hfull⟩, hlast⟩
    · exact absurd hfeed hc.ne_feed
    · exact ⟨hfull, hlast⟩
  · rintro ⟨hfull, hlast⟩
    exact ⟨Or.inr ⟨hc.ne_return, hback, hfull⟩, hlast⟩

/-- Where the next character would appear: at the place of the strip, or at the start of the
last line when the page has to scroll for it. -/
theorem Screen.Tracks.wrapLine_cursor (h : s.Tracks t) :
    s.wrapLine.cursor = if t.pos = s.vgaWidth.val * s.vgaHeight.val then
      (s.vgaHeight.val - 1) * s.vgaWidth.val else t.pos := by
  by_cases hend : t.pos = s.vgaWidth.val * s.vgaHeight.val
  · obtain ⟨hfull, hlast⟩ := h.atEnd_iff.mpr hend
    have hkeeps := s.scrollUp_keeps
    have hline := h.line
    rw [if_pos hend, Screen.wrapLine, if_pos hfull, Screen.newLine, if_neg hlast]
    show s.scrollUp.line * s.scrollUp.vgaWidth.val + 0 = _
    rw [hkeeps.line, hkeeps.vgaWidth, Nat.add_zero,
      show s.line = s.vgaHeight.val - 1 by omega]
  · rw [if_neg hend]
    exact (h.wrapLine fun hfull => not_not.mp fun hlast =>
      hend (h.atEnd_iff.mp ⟨hfull, hlast⟩)).1.cursor

/-! ## The line printed anew -/

/-- The strip behind a line that is printed from a place on. -/
def Strip.replay (width : ℕ) (t : Strip) (line : List UInt8) : Strip :=
  line.foldl (Strip.put width) t

theorem Strip.replay_concat (width : ℕ) (t : Strip) (line : List UInt8) (c : UInt8) :
    t.replay width (line ++ [c]) = (t.replay width line).put width c := by
  rw [Strip.replay, List.foldl_append]
  rfl

theorem Strip.BlankBehind.replay (h : t.BlankBehind) (line : List UInt8) :
    (t.replay width line).BlankBehind :=
  List.foldlRecOn line (Strip.put width) h fun _ ht _ _ => ht.put

/-- A line that can be printed from a place on without a scroll: each of its characters finds
the strip unfinished. -/
structure Strip.Fits (t : Strip) (width size : ℕ) (line : List UInt8) : Prop where
  typed : ∀ c ∈ line, TypedChar c ∧ c ≠ 0x08
  room : ∀ init c, init ++ [c] <+: line → (t.replay width init).pos ≠ size

/-- Printing such a line. -/
theorem Screen.Tracks.print (h : s.Tracks t) {line : List UInt8}
    (hfits : t.Fits s.vgaWidth.val (s.vgaWidth.val * s.vgaHeight.val) line) :
    (s.print line).Tracks (t.replay s.vgaWidth.val line) := by
  rw [Screen.print_eq_foldl fun c hc => (hfits.typed c hc).1.ne_zero]
  induction line using List.reverseRecOn with
  | nil => exact h
  | append_singleton line c ih =>
      have hbefore := ih ⟨fun d hd => hfits.typed d (List.mem_append_left _ hd),
        fun init d hpre => hfits.room init d (hpre.trans (List.prefix_append line [c]))⟩
      have hmode := Screen.foldl_put_sameMode line s
      obtain ⟨hc, hback⟩ := hfits.typed c (List.mem_append_right _ List.mem_cons_self)
      rw [List.foldl_append, List.foldl_cons, List.foldl_nil, Strip.replay_concat,
        ← hmode.vgaWidth]
      rw [← hmode.vgaWidth] at hbefore
      apply hbefore.put hc hback
      rw [hbefore.putScrolls_iff hc hback, hmode.vgaWidth, hmode.vgaHeight]
      exact hfits.room line c (List.prefix_refl _)

/-! ## The echo -/

/-- A prompt with nothing typed behind it: the buffer is empty, the cursor is on the page, and
the cells from it on are blank. -/
structure Shell.FreshPrompt (s : Shell) : Prop where
  len : s.shellLen = 0
  line : s.screen.line < s.screen.vgaHeight.val
  column : s.screen.column ≤ s.screen.vgaWidth.val
  blank : ∀ i, s.screen.cursor ≤ i → i < s.screen.vgaWidth.val * s.screen.vgaHeight.val →
    charByte (s.screen.vga i) = 0x20

/-- `shell_buf[0..shell_len)`. -/
def Shell.typed (s : Shell) : List UInt8 := (List.range s.shellLen).map s.shellBuf

/-- From the prompt's cursor on the screen has the characters that printing the buffer at the
prompt gives, and the next character would appear in the same place. -/
def Shell.ShowsLine (prompt s : Shell) : Prop :=
  (∀ i, prompt.screen.cursor ≤ i →
    i < prompt.screen.vgaWidth.val * prompt.screen.vgaHeight.val →
    charByte (s.screen.vga i) = charByte ((prompt.screen.print s.typed).vga i)) ∧
  s.screen.wrapLine.cursor = (prompt.screen.print s.typed).wrapLine.cursor

/-- Keys that are answered by one world. -/
def Shell.runKeys (w : World) (keys : List UInt8) (s : Shell) : Outcome Shell :=
  s.run (keys.map fun c => (w, c))

/-- No key that is echoed scrolls the page. -/
def Shell.Unscrolled (w : World) (prompt : Shell) (keys : List UInt8) : Prop :=
  ∀ done c s, done ++ [c] <+: keys → prompt.runKeys w done = .ok s →
    s.shellLen < shellBufferSize - 1 → ¬ s.screen.PutScrolls c

/-- The line ends in a tab that is wider than one cell: it begins neither in the cell before a
stop nor in the last cell of a line. -/
def EndsInWideTab (prompt : Shell) (line : List UInt8) : Prop :=
  ∃ init, line = init ++ [0x09] ∧
    (prompt.screen.print init).wrapLine.column % 4 ≠ 3 ∧
    (prompt.screen.print init).wrapLine.column + 1 ≠ prompt.screen.vgaWidth.val

/-- The line that keys leave, by the keys alone. -/
def editLines (keys : List UInt8) : List UInt8 := keys.foldl editLine []

/-- The strip at the prompt. -/
def Screen.strip (s : Screen) : Strip where
  pos := s.cursor
  cells i := if i < s.vgaWidth.val * s.vgaHeight.val then charByte (s.vga i) else 0x20

variable {prompt : Shell} {w : World} {line : List UInt8}

theorem Shell.FreshPrompt.tracks (h : prompt.FreshPrompt) :
    prompt.screen.Tracks prompt.screen.strip where
  line := h.line
  column := h.column
  cursor := rfl
  cells _ hi := (if_pos hi).symm

theorem Shell.FreshPrompt.blankBehind (h : prompt.FreshPrompt) :
    prompt.screen.strip.BlankBehind := by
  intro i hi
  show (if _ then _ else _) = _
  split_ifs with hpage
  · exact h.blank i hi hpage
  · rfl

/-- The shell after some keys, when the echo and the line printed anew agree. -/
structure Shell.Echoes (prompt s : Shell) (line : List UInt8) : Prop where
  buffers : s.Buffers line
  mode : prompt.screen.SameMode s.screen
  tracks : s.screen.Tracks (prompt.screen.strip.replay prompt.screen.vgaWidth.val line)
  fits : prompt.screen.strip.Fits prompt.screen.vgaWidth.val
    (prompt.screen.vgaWidth.val * prompt.screen.vgaHeight.val) line

theorem Shell.Buffers.typed {s : Shell} (h : s.Buffers line) : s.typed = line := by
  apply List.ext_getElem?
  intro k
  rw [Shell.typed, h.len, List.getElem?_map]
  rcases Nat.lt_or_ge k line.length with hlt | hge
  · have hk := List.getElem?_eq_getElem hlt
    rw [List.getElem?_range hlt, Option.map_some, h.buf k _ hk, hk]
  · rw [List.getElem?_eq_none (by rwa [List.length_range]), List.getElem?_eq_none hge,
      Option.map_none]

/-- Two pages that hold one strip look the same. -/
theorem Shell.Echoes.showsLine {s : Shell} (h : prompt.Echoes s line)
    (hfresh : prompt.FreshPrompt) : prompt.ShowsLine s := by
  have hreplay := hfresh.tracks.print h.fits
  have hmode := prompt.screen.print_sameMode line
  rw [Shell.ShowsLine, h.buffers.typed]
  constructor
  · intro i _ hi
    have hscreen : i < s.screen.vgaWidth.val * s.screen.vgaHeight.val := by
      rwa [h.mode.vgaWidth, h.mode.vgaHeight]
    have hprint : i < (prompt.screen.print line).vgaWidth.val *
        (prompt.screen.print line).vgaHeight.val := by
      rwa [hmode.vgaWidth, hmode.vgaHeight]
    rw [h.tracks.cells i hscreen, hreplay.cells i hprint]
  · rw [h.tracks.wrapLine_cursor, hreplay.wrapLine_cursor, h.mode.vgaWidth, h.mode.vgaHeight,
      hmode.vgaWidth, hmode.vgaHeight]

/-- The last character of the line is one cell wide. -/
def EndsNarrow (prompt : Shell) (line : List UInt8) : Prop :=
  ∀ init c, line = init ++ [c] →
    charWidth prompt.screen.vgaWidth.val
      (prompt.screen.strip.replay prompt.screen.vgaWidth.val init).pos c = 1

theorem Screen.print_singleton (hc : c ≠ 0) (s : Screen) : s.print [c] = s.put c :=
  Screen.print_eq_foldl (by simpa using hc) s

theorem Screen.print_backspace (s : Screen) : s.print [0x08] = s.backspace :=
  Screen.print_singleton (by decide) s

/-- A character that goes to the end of the line is printed there. -/
theorem Shell.Echoes.append {s s' : Shell} (h : prompt.Echoes s line) (hc : TypedChar c)
    (hback : c ≠ 0x08) (hscroll : ¬ s.screen.PutScrolls c) (hbuffers : s'.Buffers (line ++ [c]))
    (hscreen : s'.screen = s.screen.print [c]) : prompt.Echoes s' (line ++ [c]) where
  buffers := hbuffers
  mode := by
    rw [hscreen]
    exact h.mode.trans (s.screen.print_sameMode [c])
  tracks := by
    rw [hscreen, Screen.print_singleton hc.ne_zero, Strip.replay_concat, ← h.mode.vgaWidth]
    have htracks := h.tracks
    rw [← h.mode.vgaWidth] at htracks
    exact htracks.put hc hback hscroll
  fits := by
    have hend := (h.tracks.putScrolls_iff hc hback).not.mp hscroll
    rw [h.mode.vgaWidth, h.mode.vgaHeight] at hend
    refine ⟨fun d hd => ?_, fun init d hpre => ?_⟩
    · rcases List.mem_append.mp hd with hd | hd
      · exact h.fits.typed d hd
      · obtain rfl := List.mem_singleton.mp hd
        exact ⟨hc, hback⟩
    · rcases List.prefix_concat_iff.mp hpre with heq | hpre
      · obtain ⟨rfl, _⟩ := List.append_inj' heq rfl
        exact hend
      · exact h.fits.room init d hpre

/-- A backspace steps back on the strip. -/
theorem Shell.Echoes.backspace_tracks {s s' : Shell} (h : prompt.Echoes s line)
    (hline : line ≠ []) (hscreen : s'.screen = s.screen.print [0x08]) :
    s'.screen.Tracks
      (prompt.screen.strip.replay prompt.screen.vgaWidth.val line).erase := by
  rw [hscreen, Screen.print_backspace]
  apply h.tracks.backspace
  obtain ⟨init, c, rfl⟩ := (List.eq_nil_or_concat' line).resolve_left hline
  rw [Strip.replay_concat]
  exact Nat.add_pos_right _ (charWidth_pos prompt.screen.vgaWidth.pos _ _)

/-- A backspace behind a character of one cell takes it back. -/
theorem Shell.Echoes.erase {s s' : Shell} (h : prompt.Echoes s line)
    (hfresh : prompt.FreshPrompt) (hline : line ≠ []) (hnarrow : EndsNarrow prompt line)
    (hbuffers : s'.Buffers line.dropLast) (hscreen : s'.screen = s.screen.print [0x08]) :
    prompt.Echoes s' line.dropLast where
  buffers := hbuffers
  mode := by
    rw [hscreen]
    exact h.mode.trans (s.screen.print_sameMode _)
  tracks := by
    have htracks := h.backspace_tracks hline hscreen
    obtain ⟨init, c, rfl⟩ := (List.eq_nil_or_concat' line).resolve_left hline
    rw [Strip.replay_concat,
      (hfresh.blankBehind.replay init).erase_put (hnarrow init c rfl)] at htracks
    rw [List.dropLast_concat]
    exact htracks
  fits := by
    have hpre := List.dropLast_prefix line
    exact ⟨fun d hd => h.fits.typed d (hpre.subset hd),
      fun init d hinit => h.fits.room init d (hinit.trans hpre)⟩

/-- **A key.** The echo goes on to agree, if a character that is taken back was one cell
wide. -/
theorem Shell.Echoes.key {s : Shell} (h : prompt.Echoes s line) (hfresh : prompt.FreshPrompt)
    (hc : TypedChar c) (hscroll : s.shellLen < shellBufferSize - 1 → ¬ s.screen.PutScrolls c)
    (hnarrow : c = 0x08 → EndsNarrow prompt line) :
    (shellHandleChar w c s).Gives fun s' => prompt.Echoes s' (editLine line c) := by
  obtain ⟨s', hkey, hbuffers, hscreen, _⟩ := h.buffers.key w hc.ne_feed
  refine ⟨s', hkey, ?_⟩
  have hsame (hedit : editLine line c = line) (hecho : echoOf line c = []) :
      prompt.Echoes s' (editLine line c) := by
    rw [hecho, Screen.print_nil] at hscreen
    rw [hedit] at hbuffers ⊢
    exact ⟨hbuffers, hscreen ▸ h.mode, hscreen ▸ h.tracks, h.fits⟩
  by_cases hback : c = 0x08
  · by_cases hline : line = []
    · apply hsame
      · rw [editLine, if_pos hback, hline, List.dropLast_nil]
      · rw [echoOf, if_pos hback, if_pos hline]
    · rw [echoOf, if_pos hback, if_neg hline, hback] at hscreen
      rw [editLine, if_pos hback] at hbuffers ⊢
      exact h.erase hfresh hline (hnarrow hback) hbuffers hscreen
  · by_cases hroom : line.length < 255
    · rw [echoOf, if_neg hback, if_pos hroom] at hscreen
      rw [editLine, if_neg hback, if_pos hroom] at hbuffers ⊢
      exact h.append hc hback (hscroll (h.buffers.len ▸ hroom)) hbuffers hscreen
    · apply hsame
      · rw [editLine, if_neg hback, if_neg hroom]
      · rw [echoOf, if_neg hback, if_neg hroom]

/-! ## Any keys -/

theorem Shell.run_append (first second : List (World × UInt8)) (s : Shell) :
    s.run (first ++ second) = s.run first >>= fun s => s.run second := by
  induction first generalizing s with
  | nil => rfl
  | cons key first ih =>
      obtain ⟨w, c⟩ := key
      rw [List.cons_append, Shell.run, Shell.run]
      cases shellHandleChar w c s with
      | ok next => exact ih next
      | error stop => rfl

theorem Shell.runKeys_concat {keys : List UInt8} {s s' : Shell}
    (hs : s.runKeys w keys = .ok s') (c : UInt8) :
    s.runKeys w (keys ++ [c]) = shellHandleChar w c s' := by
  rw [Shell.runKeys] at hs
  rw [Shell.runKeys, List.map_append, Shell.run_append, hs, Outcome.ok_bind]
  show (shellHandleChar w c s' >>= fun s => .ok s) = _
  cases shellHandleChar w c s' <;> rfl

theorem editLines_concat (keys : List UInt8) (c : UInt8) :
    editLines (keys ++ [c]) = editLine (editLines keys) c := by
  rw [editLines, List.foldl_append]
  rfl

theorem Shell.FreshPrompt.echoes (h : prompt.FreshPrompt) : prompt.Echoes prompt [] where
  buffers := ⟨h.len, by decide, nofun⟩
  mode := .refl _
  tracks := h.tracks
  fits := ⟨nofun, fun init c hpre => by
    have hnil := List.prefix_nil.mp hpre
    exact absurd (congrArg List.length hnil) (by simp)⟩

/-- The echo agrees after any keys, if every backspace that comes while it agrees finds a
narrow character. -/
theorem Shell.FreshPrompt.echoes_keys (hfresh : prompt.FreshPrompt) {keys : List UInt8}
    (htyped : ∀ c ∈ keys, TypedChar c) (hscroll : prompt.Unscrolled w keys)
    (hnarrow : ∀ done s, done ++ [0x08] <+: keys → prompt.runKeys w done = .ok s →
      prompt.Echoes s (editLines done) → EndsNarrow prompt (editLines done)) :
    (prompt.runKeys w keys).Gives fun s => prompt.Echoes s (editLines keys) := by
  induction keys using List.reverseRecOn with
  | nil => exact ⟨prompt, rfl, hfresh.echoes⟩
  | append_singleton keys c ih =>
      have hpre := List.prefix_append keys [c]
      obtain ⟨s, hs, hechoes⟩ := ih (fun d hd => htyped d (List.mem_append_left _ hd))
        (fun done d s' hdone => hscroll done d s' (hdone.trans hpre))
        (fun done s' hdone => hnarrow done s' (hdone.trans hpre))
      rw [Shell.runKeys_concat hs, editLines_concat]
      apply hechoes.key hfresh (htyped c (List.mem_append_right _ List.mem_cons_self))
      · exact hscroll keys c s (List.prefix_refl _) hs
      · intro hback
        exact hnarrow keys s (hback ▸ List.prefix_refl _) hs hechoes

theorem Strip.Fits.shorter {t : Strip} {width size : ℕ} {init : List UInt8}
    (h : t.Fits width size line) (hinit : init <+: line) : t.Fits width size init :=
  ⟨fun c hc => h.typed c (hinit.subset hc), fun before c hpre =>
    h.room before c (hpre.trans hinit)⟩

/-- The column in which the last character of the line begins. -/
theorem Shell.Echoes.column_eq {s : Shell} {init : List UInt8}
    (h : prompt.Echoes s (init ++ [c])) (hfresh : prompt.FreshPrompt) :
    (prompt.screen.print init).wrapLine.column =
      (prompt.screen.strip.replay prompt.screen.vgaWidth.val init).pos %
        prompt.screen.vgaWidth.val := by
  have hmode := prompt.screen.print_sameMode init
  have htracks := hfresh.tracks.print (h.fits.shorter (List.prefix_append init [c]))
  have hend := h.fits.room init c (List.prefix_refl _)
  have hroom (hfull : (prompt.screen.print init).vgaWidth.val ≤
      (prompt.screen.print init).column) :
      (prompt.screen.print init).line < (prompt.screen.print init).vgaHeight.val - 1 := by
    by_contra hlast
    apply hend
    rw [htracks.atEnd_iff.mp ⟨hfull, hlast⟩, hmode.vgaWidth, hmode.vgaHeight]
  have hwrap := (htracks.wrapLine hroom).2
  rw [hmode.vgaWidth] at hwrap
  exact hwrap

/-- Where a character is narrow, by the columns of the screen. -/
theorem Shell.Echoes.endsNarrow_iff {s : Shell} (h : prompt.Echoes s line)
    (hfresh : prompt.FreshPrompt) : EndsNarrow prompt line ↔ ¬ EndsInWideTab prompt line := by
  have hmod (pos : ℕ) := Nat.mod_lt pos prompt.screen.vgaWidth.pos
  constructor
  · rintro hnarrow ⟨init, rfl, hstop, hlast⟩
    have hone := hnarrow init 0x09 rfl
    rw [h.column_eq hfresh] at hstop hlast
    rw [charWidth, if_pos rfl] at hone
    omega
  · rintro hwide init c rfl
    unfold charWidth
    split_ifs with htab
    · by_contra hne
      apply hwide
      refine ⟨init, htab ▸ rfl, ?_⟩
      rw [h.column_eq hfresh]
      have := hmod (prompt.screen.strip.replay prompt.screen.vgaWidth.val init).pos
      omega
    · rfl

/-- If the screen shows the line behind a backspace, the character it took back was narrow. -/
theorem Shell.Echoes.endsNarrow {s s' : Shell} (h : prompt.Echoes s line)
    (hfresh : prompt.FreshPrompt) (hkey : shellHandleChar w 0x08 s = .ok s')
    (hshows : prompt.ShowsLine s') : EndsNarrow prompt line := by
  rintro init c rfl
  obtain ⟨s'', hkey', hbuffers, hscreen, _⟩ := h.buffers.key w (c := 0x08) (by decide)
  obtain rfl := Except.ok.inj (hkey.symm.trans hkey')
  have hline : init ++ [c] ≠ [] := List.concat_ne_nil c init
  rw [echoOf, if_pos rfl, if_neg hline] at hscreen
  rw [editLine, if_pos rfl, List.dropLast_concat] at hbuffers
  -- The echo is one cell before the end of the line, the line printed anew ends at `init`.
  have hecho := h.backspace_tracks hline hscreen
  have hreplay := hfresh.tracks.print (h.fits.shorter (List.prefix_append init [c]))
  have hmode' := prompt.screen.print_sameMode init
  have hmode : prompt.screen.SameMode s'.screen := by
    rw [hscreen]
    exact h.mode.trans (s.screen.print_sameMode _)
  have hsame := hshows.2
  rw [hbuffers.typed, hecho.wrapLine_cursor, hreplay.wrapLine_cursor, hmode.vgaWidth,
    hmode.vgaHeight, hmode'.vgaWidth, hmode'.vgaHeight] at hsame
  have hend := h.fits.room init c (List.prefix_refl _)
  have hle := h.tracks.pos_le
  rw [h.mode.vgaWidth, h.mode.vgaHeight, Strip.replay_concat] at hle
  have hpos := charWidth_pos prompt.screen.vgaWidth.pos
    (prompt.screen.strip.replay prompt.screen.vgaWidth.val init).pos c
  have herase : ((prompt.screen.strip.replay prompt.screen.vgaWidth.val (init ++ [c])).erase).pos =
      (prompt.screen.strip.replay prompt.screen.vgaWidth.val init).pos +
        charWidth prompt.screen.vgaWidth.val
          (prompt.screen.strip.replay prompt.screen.vgaWidth.val init).pos c - 1 := by
    rw [Strip.replay_concat]
    rfl
  replace hle : (prompt.screen.strip.replay prompt.screen.vgaWidth.val init).pos +
      charWidth prompt.screen.vgaWidth.val
        (prompt.screen.strip.replay prompt.screen.vgaWidth.val init).pos c ≤
      prompt.screen.vgaWidth.val * prompt.screen.vgaHeight.val := hle
  rw [herase, if_neg hend, if_neg (by omega)] at hsame
  omega

/-- **The screen shows the edited line after every key exactly when no backspace takes back a
tab that is wider than one cell.** -/
theorem echo_shows_line_iff (w : World) (prompt : Shell) (keys : List UInt8)
    (hfresh : prompt.FreshPrompt) (htyped : ∀ c ∈ keys, TypedChar c)
    (hscroll : prompt.Unscrolled w keys) :
    (∀ done, done <+: keys → ∃ s, prompt.runKeys w done = .ok s ∧ prompt.ShowsLine s) ↔
      ∀ done, done ++ [0x08] <+: keys → ¬ EndsInWideTab prompt (editLines done) := by
  have hechoes (hnarrow : ∀ done s, done ++ [0x08] <+: keys → prompt.runKeys w done = .ok s →
      prompt.Echoes s (editLines done) → EndsNarrow prompt (editLines done))
      (done : List UInt8) (hdone : done <+: keys) :
      (prompt.runKeys w done).Gives fun s => prompt.Echoes s (editLines done) :=
    hfresh.echoes_keys (fun c hc => htyped c (hdone.subset hc))
      (fun before c s hbefore => hscroll before c s (hbefore.trans hdone))
      fun before s hbefore => hnarrow before s (hbefore.trans hdone)
  constructor
  · intro hshows
    have hnarrow (done : List UInt8) (s : Shell) (hpre : done ++ [0x08] <+: keys)
        (hs : prompt.runKeys w done = .ok s) (hagree : prompt.Echoes s (editLines done)) :
        EndsNarrow prompt (editLines done) := by
      obtain ⟨s', hs', hshow⟩ := hshows _ hpre
      rw [Shell.runKeys_concat hs] at hs'
      exact hagree.endsNarrow hfresh hs' hshow
    intro done hpre
    have hdone := (List.prefix_append done [0x08]).trans hpre
    obtain ⟨s, hs, hagree⟩ := hechoes hnarrow done hdone
    exact (hagree.endsNarrow_iff hfresh).mp (hnarrow done s hpre hs hagree)
  · intro hwide done hdone
    obtain ⟨s, hs, hagree⟩ := hechoes
      (fun done s hpre _ hagree => (hagree.endsNarrow_iff hfresh).mpr (hwide done hpre))
      done hdone
    exact ⟨s, hs, hagree.showsLine hfresh⟩

/-- A prompt of seventeen characters on an empty page. -/
def shortPrompt : Shell :=
  Shell.start {
    column := 17
    line := 0
    currColor := .default
    vgaWidth := .eighty
    vgaHeight := .fifty
    vga _ := Color.default.cell 0x20
    written := [] }

theorem shortPrompt_freshPrompt : shortPrompt.FreshPrompt where
  len := rfl
  line := by decide
  column := by decide
  blank _ _ _ := charByte_cell _ _

/-- Two keys, the second a backspace, scroll nothing there. -/
theorem shortPrompt_unscrolled (c : UInt8) :
    shortPrompt.Unscrolled failingWorld [c, 0x08] := by
  rintro done d s hpre hs _ ⟨hwrap, hlast⟩
  cases done with
  | nil =>
      obtain rfl := Except.ok.inj hs
      exact hlast (by decide)
  | cons first rest =>
      rw [List.cons_append, List.cons_prefix_cons] at hpre
      cases rest with
      | nil =>
          obtain ⟨rfl, _⟩ := List.cons_prefix_cons.mp hpre.2
          rcases hwrap with h | ⟨_, h, _⟩
          · exact absurd h (by decide)
          · exact h rfl
      | cons second rest =>
          have hlength := hpre.2.length_le
          simp at hlength

/-- A letter that is taken back leaves no trace. -/
theorem echo_shows_line_letter :
    ∃ s, shortPrompt.runKeys failingWorld [0x61, 0x08] = .ok s ∧ shortPrompt.ShowsLine s := by
  have htyped : ∀ c ∈ ([0x61, 0x08] : List UInt8), TypedChar c :=
    List.forall_mem_cons.mpr ⟨by decide, List.forall_mem_singleton.mpr (by decide)⟩
  refine (echo_shows_line_iff failingWorld shortPrompt [0x61, 0x08] shortPrompt_freshPrompt
    htyped (shortPrompt_unscrolled 0x61)).mpr ?_ _ (List.prefix_refl _)
  rintro done hpre ⟨init, hline, _⟩
  cases done with
  | nil => exact absurd (List.cons_prefix_cons.mp hpre).1 (by decide)
  | cons first rest =>
      obtain ⟨rfl, hpre⟩ := List.cons_prefix_cons.mp hpre
      cases rest with
      | nil =>
          have hlast := congrArg List.getLast? hline
          rw [List.getLast?_concat] at hlast
          exact absurd hlast (by decide)
      | cons second rest =>
          have hlength := hpre.length_le
          simp at hlength

/-- A tab from column 17 goes to column 20, a backspace steps back to column 19, and the
empty line ends in column 17. -/
theorem echo_differs_tab :
    shortPrompt.FreshPrompt ∧ shortPrompt.Unscrolled failingWorld [0x09, 0x08] ∧
      ∃ s, shortPrompt.runKeys failingWorld [0x09, 0x08] = .ok s ∧ ¬ shortPrompt.ShowsLine s := by
  refine ⟨shortPrompt_freshPrompt, shortPrompt_unscrolled 0x09, _, rfl, fun hshows => ?_⟩
  exact absurd hshows.2 (by decide +kernel)

end MasterOS.Console
