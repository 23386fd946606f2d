/-
# The hour that `time` shows

The offset of the `time` command is read digit by digit into a machine word, added to the
hour modulo 256, and the sum is brought back below 24 by one subtraction. The line that is
printed determines the hour in it, so what the command does says which hour it shows.
-/

import MasterOS.Console.Commands
import MasterOS.Console.Page
import Mathlib.Data.Nat.Digits.Lemmas

namespace MasterOS.Console

open MasterOS.Math

/-- A string of decimal digits. -/
structure Numeral where
  text : List UInt8
  digit : ∀ c ∈ text, 0x30 ≤ c ∧ c ≤ 0x39

/-- The number that digits denote. -/
def valueOf (text : List UInt8) : ℕ := text.foldl (fun n c => c.toNat - 0x30 + 10 * n) 0

/-- `cmd_time` from the hour on. -/
def showTime (t : RTCTime) (hour : ℕ) (s : Shell) : Shell :=
  let s := ((s.printUint hour).say ":").printUint t.minutes.toNat
  let s := ((s.say "  ").printUint t.day.toNat).say "/"
  let s := ((s.printUint t.month.toNat).say "/").printUint t.year.toNat
  s.say " \r\n"

/-- From every state of the shell the command shows this hour, and the rest of the time as it
was read. -/
def ShowsHour (w : World) (arg : List UInt8) (hour : ℕ) : Prop :=
  ∀ s, cmdTime w (some arg) s = .ok (showTime w.rtcRead hour s)

/-! ## Reading the offset -/

/-- `k_atoi` reads the number modulo the size of an `int`. -/
theorem kAtoiFrom_eq {text : List UInt8} (h : ∀ c ∈ text, 0x30 ≤ c ∧ c ≤ 0x39)
    {result : UInt32} {n : ℕ} (hresult : result.toNat = n % 2 ^ 32) :
    (kAtoiFrom text result).toNat =
      text.foldl (fun n c => c.toNat - 0x30 + 10 * n) n % 2 ^ 32 := by
  induction text generalizing result n with
  | nil => exact hresult
  | cons c rest ih =>
      obtain ⟨hlow, hhigh⟩ := h c List.mem_cons_self
      have hnext : (result * 10 + (c - 0x30).toUInt32).toNat =
          (c.toNat - 0x30 + 10 * n) % 2 ^ 32 := by
        have hsub : (c - 0x30).toNat = c.toNat - 0x30 := UInt8.toNat_sub_of_le _ _ hlow
        rw [UInt32.toNat_add, UInt32.toNat_mul, UInt8.toNat_toUInt32, hsub, hresult,
          show (10 : UInt32).toNat = 10 from rfl]
        omega
      rw [kAtoiFrom, if_pos ⟨hlow, hhigh⟩, List.foldl_cons]
      exact ih (fun d hd => h d (List.mem_cons_of_mem c hd)) hnext

/-- The hour is the 8-bit sum, less 24 when that is possible. -/
theorem cmdTime_eq (w : World) (digits : Numeral) :
    ∃ hour : UInt8, ShowsHour w digits.text hour.toNat ∧
      hour.toNat = if 24 ≤ (w.rtcRead.hours.toNat + valueOf digits.text) % 256 then
          (w.rtcRead.hours.toNat + valueOf digits.text) % 256 - 24
        else (w.rtcRead.hours.toNat + valueOf digits.text) % 256 := by
  have hoffset : (kAtoiFrom digits.text 0).toNat = valueOf digits.text % 2 ^ 32 :=
    kAtoiFrom_eq digits.digit rfl
  have hsum : (w.rtcRead.hours + (kAtoiFrom digits.text 0).toUInt8).toNat =
      (w.rtcRead.hours.toNat + valueOf digits.text) % 256 := by
    rw [UInt8.toNat_add, UInt32.toNat_toUInt8, hoffset]
    omega
  refine ⟨_, fun s => rfl, ?_⟩
  by_cases hlarge : 24 ≤ w.rtcRead.hours + (kAtoiFrom digits.text 0).toUInt8
  · have hle : 24 ≤ (w.rtcRead.hours.toNat + valueOf digits.text) % 256 :=
      hsum ▸ UInt8.le_iff_toNat_le.mp hlarge
    rw [if_pos hlarge, if_pos hle, UInt8.toNat_sub_of_le _ _ hlarge, hsum]
    rfl
  · have hlt : ¬ 24 ≤ (w.rtcRead.hours.toNat + valueOf digits.text) % 256 :=
      fun hle => hlarge (UInt8.le_iff_toNat_le.mpr (hsum.symm ▸ hle))
    rw [if_neg hlarge, if_neg hlt, hsum]

/-! ## The line determines the hour -/

theorem valueOf_decimal (n : ℕ) : valueOf (decimal n) = n := by
  rw [decimal]
  split_ifs with hzero
  · rw [hzero]
    rfl
  · have hdigit : ∀ d ∈ Nat.digits 10 n, (UInt8.ofNat (0x30 + d)).toNat - 0x30 = d := by
      intro d hd
      have hlt := Nat.digits_lt_base (by decide) hd
      rw [UInt8.toNat_ofNat_of_lt' (show 0x30 + d < 256 by omega)]
      omega
    rw [valueOf, List.foldl_map, List.foldl_reverse]
    calc (Nat.digits 10 n).foldr (fun d n => (UInt8.ofNat (0x30 + d)).toNat - 0x30 + 10 * n) 0
        = (Nat.digits 10 n).foldr (fun d n => d + 10 * n) 0 :=
          List.foldr_ext _ _ _ fun d hd n => by rw [hdigit d hd]
      _ = Nat.ofDigits 10 (Nat.digits 10 n) := (Nat.ofDigits_eq_foldr 10 _).symm
      _ = n := Nat.ofDigits_digits 10 n

/-- The digits of a number are characters, and there are few when it is small. -/
theorem decimal_digit {n : ℕ} {c : UInt8} (hc : c ∈ decimal n) : 0x30 ≤ c ∧ c ≤ 0x39 := by
  rw [decimal] at hc
  split_ifs at hc
  · rw [List.mem_singleton.mp hc]
    decide
  · obtain ⟨d, hd, rfl⟩ := List.mem_map.mp hc
    have hlt := Nat.digits_lt_base (by decide) (List.mem_reverse.mp hd)
    rw [UInt8.le_iff_toNat_le, UInt8.le_iff_toNat_le,
      UInt8.toNat_ofNat_of_lt' (show 0x30 + d < 256 by omega)]
    exact ⟨Nat.le_add_right _ _, Nat.add_le_add_left (Nat.le_of_lt_succ hlt) 0x30⟩

theorem length_decimal_le (n : UInt8) : (decimal n.toNat).length ≤ 3 := by
  have hlt := n.toNat_lt
  rw [decimal]
  split_ifs
  · decide
  · rw [List.length_map, List.length_reverse, Nat.digits_length_le_iff (by decide)]
    omega

/-- The strings that `cmd_time` prints, in order. -/
def timePrints (t : RTCTime) (hour : ℕ) : List (List UInt8) :=
  (decimal hour).map ([·]) ++ text ":" :: (decimal t.minutes.toNat).map ([·]) ++
    text "  " :: (decimal t.day.toNat).map ([·]) ++ text "/" ::
    (decimal t.month.toNat).map ([·]) ++ text "/" :: (decimal t.year.toNat).map ([·]) ++
    [text " \r\n"]

/-- The line on the screen. -/
def timeLine (t : RTCTime) (hour : ℕ) : List UInt8 :=
  decimal hour ++ 0x3A :: (decimal t.minutes.toNat ++ 0x20 :: 0x20 :: (decimal t.day.toNat ++
    0x2F :: (decimal t.month.toNat ++ 0x2F :: (decimal t.year.toNat ++ [0x20]))))

theorem printUint_screen (s : Shell) (n : ℕ) :
    (s.printUint n).screen = ((decimal n).map ([·])).foldl Screen.print s.screen := by
  rw [Shell.printUint, List.foldl_map]
  exact (List.foldl_hom Shell.screen fun _ _ => rfl).symm

theorem showTime_screen (t : RTCTime) (hour : ℕ) (s : Shell) :
    (showTime t hour s).screen = (timePrints t hour).foldl Screen.print s.screen := by
  simp only [showTime, timePrints, Shell.say, Shell.print, printUint_screen, List.foldl_append,
    List.foldl_cons, List.foldl_nil]

theorem timePrints_flatten (t : RTCTime) (hour : ℕ) :
    (timePrints t hour).flatten = timeLine t hour ++ [0x0D, 0x0A] := by
  have hflat (l : List UInt8) : (l.map ([·])).flatten = l := List.flatMap_singleton' l
  have hcolon : text ":" = [0x3A] := rfl
  have hgap : text "  " = [0x20, 0x20] := rfl
  have hslash : text "/" = [0x2F] := rfl
  have hend : text " \r\n" = [0x20, 0x0D, 0x0A] := rfl
  simp [timePrints, timeLine, hflat, hcolon, hgap, hslash, hend]

theorem mem_timeLine {t : RTCTime} {hour : ℕ} {c : UInt8} (hc : c ∈ timeLine t hour) :
    0x20 ≤ c ∧ c ≤ 0x7E := by
  have hdecimal (n : ℕ) (hc : c ∈ decimal n) : 0x20 ≤ c ∧ c ≤ 0x7E :=
    ⟨UInt8.le_trans (by decide) (decimal_digit hc).1,
      UInt8.le_trans (decimal_digit hc).2 (by decide)⟩
  simp only [timeLine, List.mem_append, List.mem_cons, List.not_mem_nil, or_false] at hc
  rcases hc with hc | rfl | hc | rfl | rfl | hc | rfl | hc | rfl | hc | rfl
  all_goals first | exact hdecimal _ hc | decide

/-- The line is short enough for a row. -/
theorem length_timeLine_le (t : RTCTime) (hour : UInt8) :
    (timeLine t hour.toNat).length ≤ 80 := by
  have hhour := length_decimal_le hour
  have hminutes := length_decimal_le t.minutes
  have hday := length_decimal_le t.day
  have hmonth := length_decimal_le t.month
  have hyear := length_decimal_le t.year
  simp only [timeLine, List.length_append, List.length_cons, List.length_nil]
  omega

/-- The hour is in front of the colon, whatever blanks follow the line. -/
theorem takeWhile_timeLine (t : RTCTime) (hour width : ℕ) :
    ((timeLine t hour).rightpad width 0x20).takeWhile (· ≠ 0x3A) = decimal hour := by
  have hdigits : ∀ c ∈ decimal hour, decide (c ≠ 0x3A) = true := by
    intro c hc
    have hle := (decimal_digit hc).2
    exact decide_eq_true fun h => absurd (h ▸ hle) (by decide)
  rw [List.rightpad, timeLine, List.append_assoc, List.takeWhile_append_of_pos hdigits,
    List.cons_append, List.takeWhile_cons_of_neg (by decide), List.append_nil]

/-- A text of printable characters and the end of its line, as pieces. -/
theorem exists_pieces {line : List UInt8} (h : ∀ c ∈ line, 0x20 ≤ c ∧ c ≤ 0x7E) :
    ∃ pieces : List Piece, pieces.flatMap Piece.bytes = line ++ [0x0D, 0x0A] ∧
      pieces.map Piece.toChar = line.map some ++ [none] := by
  induction line with
  | nil => exact ⟨[.feed true], rfl, rfl⟩
  | cons c rest ih =>
      obtain ⟨pieces, hbytes, hchars⟩ := ih fun d hd => h d (List.mem_cons_of_mem c hd)
      obtain ⟨hlow, hhigh⟩ := h c List.mem_cons_self
      refine ⟨.char ⟨c, hlow, hhigh⟩ :: pieces, ?_, ?_⟩
      · rw [List.flatMap_cons, hbytes]
        rfl
      · rw [List.map_cons, hchars]
        rfl

/-- The rows of one line. -/
theorem rowsOf_line {width : ℕ} {line : List UInt8} (h : line.length ≤ width) :
    rowsOf width (line.map some ++ [none]) = [line, []] := by
  have hcut : cutLines (line.map some ++ [none]) = [line, []] := by
    induction line with
    | nil => rfl
    | cons c rest ih =>
        rw [List.map_cons, List.cons_append, cutLines, ih (Nat.le_of_succ_le h)]
        rfl
  rw [rowsOf, hcut, List.flatMap_cons, List.flatMap_singleton, wrap_of_le h,
    wrap_of_le (Nat.zero_le width)]
  rfl

/-- A row with blanks behind its text. -/
theorem getElem?_rightpad {row : List UInt8} {width : ℕ} (h : row.length ≤ width) (j : ℕ) :
    (row.rightpad width 0x20)[j]? =
      if j < width then some (row[j]?.getD 0x20) else none := by
  rw [List.rightpad]
  rcases Nat.lt_or_ge j row.length with hlt | hge
  · rw [List.getElem?_append_left hlt, if_pos (hlt.trans_le h), List.getElem?_eq_getElem hlt]
    rfl
  · rw [List.getElem?_append_right hge, List.getElem?_replicate, List.getElem?_eq_none hge]
    split_ifs
    · rfl
    · omega
    · omega
    · rfl

/-- On a blank page the line is the first row. -/
theorem showTime_row (t : RTCTime) (hour : UInt8) {s : Shell} (hblank : s.screen.Shows [[]])
    (hwidth : s.screen.vgaWidth = .eighty) (hheight : s.screen.vgaHeight = .fifty) {j : ℕ}
    (hj : j < 80) : charByte ((showTime t hour.toNat s).screen.vga j) =
      (timeLine t hour.toNat)[j]?.getD 0x20 := by
  obtain ⟨pieces, hbytes, hchars⟩ := exists_pieces fun c hc => @mem_timeLine t hour.toNat c hc
  have hprint : (showTime t hour.toNat s).screen =
      (pieces.flatMap Piece.bytes).foldl Screen.put s.screen := by
    rw [showTime_screen, Screen.foldl_print, timePrints_flatten, hbytes]
    intro c hc
    rw [timePrints_flatten, ← hbytes] at hc
    exact Piece.bytes_ne_zero hc
  have hrows : textRows s.screen.vgaWidth pieces = [timeLine t hour.toNat, []] := by
    rw [textRows, hchars, hwidth]
    exact rowsOf_line (length_timeLine_le t hour)
  have hmode := s.screen.foldl_put_sameMode (pieces.flatMap Piece.bytes)
  have hcell := (hblank.text pieces).cells 0 j
  rw [hrows, hmode.vgaWidth, hmode.vgaHeight, hwidth, hheight, Nat.zero_mul, Nat.zero_add,
    ← hprint] at hcell
  exact hcell (by decide) hj

/-- **The command shows one hour.** -/
theorem ShowsHour.unique {w : World} {arg : List UInt8} {a b : UInt8}
    (ha : ShowsHour w arg a.toNat) (hb : ShowsHour w arg b.toNat) : a = b := by
  have hshell : showTime w.rtcRead a.toNat freshShell = showTime w.rtcRead b.toNat freshShell :=
    Except.ok.inj ((ha freshShell).symm.trans (hb freshShell))
  have hmode := Screen.reset_sameMode
    ⟨0, 0, .default, .eighty, .fifty, fun _ => (0 : UInt16), []⟩
  have hcell (hour : UInt8) {j : ℕ} (hj : j < 80) :=
    showTime_row w.rtcRead hour (s := freshShell) (Screen.reset_shows _) hmode.vgaWidth
      hmode.vgaHeight hj
  -- both lines, with blanks behind them, are the first row of the screen
  have hrow : (timeLine w.rtcRead a.toNat).rightpad 80 0x20 =
      (timeLine w.rtcRead b.toNat).rightpad 80 0x20 := by
    apply List.ext_getElem?
    intro j
    rw [getElem?_rightpad (length_timeLine_le w.rtcRead a),
      getElem?_rightpad (length_timeLine_le w.rtcRead b)]
    split_ifs with hj
    · rw [← hcell a hj, ← hcell b hj, hshell]
    · rfl
  have hdecimal : decimal a.toNat = decimal b.toNat := by
    rw [← takeWhile_timeLine w.rtcRead a.toNat 80, hrow, takeWhile_timeLine]
  apply UInt8.toNat_inj.mp
  rw [← valueOf_decimal a.toNat, hdecimal, valueOf_decimal]

/-! ## The hour that is right -/

/-- **When the command shows the shifted hour.** A sum below 48 takes at most the one
subtraction there is. A larger one is right where the 8-bit sum has lost a multiple of 24. -/
theorem showsHour_iff (w : World) (digits : Numeral) :
    ShowsHour w digits.text ((w.rtcRead.hours.toNat + valueOf digits.text) % 24) ↔
      (w.rtcRead.hours.toNat + valueOf digits.text) % 768 < 48 := by
  obtain ⟨hour, hshows, hhour⟩ := cmdTime_eq w digits
  have hlt : (w.rtcRead.hours.toNat + valueOf digits.text) % 24 < 2 ^ 8 :=
    (Nat.mod_lt _ (by decide)).trans (by decide)
  have hright : ShowsHour w digits.text ((w.rtcRead.hours.toNat + valueOf digits.text) % 24) ↔
      (w.rtcRead.hours.toNat + valueOf digits.text) % 24 = hour.toNat := by
    constructor
    · intro h
      rw [← UInt8.toNat_ofNat_of_lt' hlt] at h ⊢
      rw [h.unique hshows]
    · intro h
      rw [h]
      exact hshows
  rw [hright, hhour]
  split_ifs <;> omega

/-- Five in the morning. -/
def earlyWorld : World := { failingWorld with rtcRead := ⟨5, 0, 1, 1, 26⟩ }

/-- Two days later the same hour should be shown. -/
def twoDays : Numeral := ⟨text "48", by decide +kernel⟩

/-- At five, an offset of 48 shows the hour 29. -/
theorem not_showsHour : ¬ ∀ (w : World) (digits : Numeral), w.rtcRead.hours.toNat < 24 →
    ShowsHour w digits.text ((w.rtcRead.hours.toNat + valueOf digits.text) % 24) := by
  intro h
  obtain ⟨hour, hshows, hhour⟩ := cmdTime_eq earlyWorld twoDays
  have hfive : ShowsHour earlyWorld twoDays.text (5 : UInt8).toNat :=
    h earlyWorld twoDays (by decide)
  rw [← hfive.unique hshows] at hhour
  exact absurd hhour (by decide)

end MasterOS.Console
