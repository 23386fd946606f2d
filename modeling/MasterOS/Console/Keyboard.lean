/-
# The keyboard

The interrupt handler of the keyboard as a function of the two bytes it reads from port
0x60. It keeps the state of shift and caps lock, and hands a character to whatever handler
is installed.
-/

import Mathlib.Data.List.Basic

namespace MasterOS.Console

/-! ## The key tables -/

/-- `UNKNOWN`. -/
def unknown : ℕ := 0xFFFFFFFF

/-- `ESC`, `CTRL`, `LSHFT` and the other keys without a character, by their number. -/
def special (k : ℕ) : ℕ := 0xFFFFFFFF - k

def esc : ℕ := special 1
def ctrl : ℕ := special 2
def lshft : ℕ := special 3
def rshft : ℕ := special 4
def alt : ℕ := special 5
def f1 : ℕ := special 6
def f2 : ℕ := special 7
def f3 : ℕ := special 8
def f4 : ℕ := special 9
def f5 : ℕ := special 10
def f6 : ℕ := special 11
def f7 : ℕ := special 12
def f8 : ℕ := special 13
def f9 : ℕ := special 14
def f10 : ℕ := special 15
def f11 : ℕ := special 16
def f12 : ℕ := special 17
def scrlck : ℕ := special 18
def home : ℕ := special 19
def up : ℕ := special 20
def left : ℕ := special 21
def right : ℕ := special 22
def down : ℕ := special 23
def pgup : ℕ := special 24
def pgdown : ℕ := special 25
def endKey : ℕ := special 26
def ins : ℕ := special 27
def del : ℕ := special 28
def caps : ℕ := special 29
def numlck : ℕ := special 32

/-- The keys of both tables behind the space bar. -/
def lastKeys : List ℕ :=
  [caps, f1, f2, f3, f4, f5, f6, f7, f8, f9, f10, numlck, scrlck, home, up, pgup, '-'.toNat, left,
    unknown, right, '+'.toNat, endKey, down, pgdown, ins, del, unknown, unknown, unknown, f11,
    f12] ++ List.replicate 39 unknown

/-- `lowercase`. -/
def lowercase : List ℕ :=
  [unknown, esc] ++
  ['1', '2', '3', '4', '5', '6', '7', '8', '9', '0', '-', '=', '\x08', '\t', 'q', 'w', 'e', 'r',
    't', 'y', 'u', 'i', 'o', 'p', '[', ']', '\n'].map Char.toNat ++ [ctrl] ++
  ['a', 's', 'd', 'f', 'g', 'h', 'j', 'k', 'l', ';', '\x27', '\x60'].map Char.toNat ++ [lshft] ++
  ['\x5c', 'z', 'x', 'c', 'v', 'b', 'n', 'm', ',', '.', '/'].map Char.toNat ++
  [rshft, '*'.toNat, alt, ' '.toNat] ++ lastKeys

/-- `uppercase`. -/
def uppercase : List ℕ :=
  [unknown, esc] ++
  ['!', '@', '#', '$', '%', '^', '&', '*', '(', ')', '_', '+', '\x08', '\t', 'Q', 'W', 'E', 'R',
    'T', 'Y', 'U', 'I', 'O', 'P', '\x7b', '\x7d', '\n'].map Char.toNat ++ [ctrl] ++
  ['A', 'S', 'D', 'F', 'G', 'H', 'J', 'K', 'L', ':', '\x22', '~'].map Char.toNat ++ [lshft] ++
  ['|', 'Z', 'X', 'C', 'V', 'B', 'N', 'M', '<', '>', '?'].map Char.toNat ++
  [rshft, '*'.toNat, alt, ' '.toNat] ++ lastKeys

theorem length_lowercase : lowercase.length = 128 := by decide +kernel

theorem length_uppercase : uppercase.length = 128 := by decide +kernel

/-! ## The interrupt handler -/

/-- `capsOn` and `capsLock`. -/
structure Modifiers where
  capsOn : Bool
  capsLock : Bool

/-- The scan codes that `keybHandler` drops. -/
def droppedCodes : List ℕ := [1, 29, 56, 59, 60, 61, 62, 63, 64, 65, 66, 67, 68, 87, 88]

/-- The table entry of a scan code. -/
def Modifiers.key (mods : Modifiers) (scanCode : ℕ) : ℕ :=
  (if mods.capsOn || mods.capsLock then uppercase else lowercase)[scanCode]?.getD unknown

/-- `keybHandler`, up to the call of the installed handler: the modifiers it leaves, and
the character it passes on. The port is read twice, once for the scan code and once for
the bit that tells a press from a release. -/
def keybHandler (mods : Modifiers) (first second : UInt8) : Modifiers × Option UInt8 :=
  let scanCode := first.toNat % 0x80
  let pressed := second.toNat < 0x80
  if scanCode ∈ droppedCodes then (mods, none)
  else if scanCode = 42 then ({ mods with capsOn := pressed }, none)
  else if scanCode = 58 then
    (if pressed then { mods with capsLock := !mods.capsLock } else mods, none)
  else if pressed ∧ (mods.key scanCode < 0x80 ∨ mods.key scanCode = 0x08 ∨
      mods.key scanCode = 0x0A) then
    (mods, some (UInt8.ofNat (mods.key scanCode)))
  else (mods, none)

/-- Neither table has a NUL. -/
theorem Modifiers.key_ne_zero (mods : Modifiers) {scanCode : ℕ} (h : scanCode < 128) :
    mods.key scanCode ≠ 0 := by
  have htable (table : List ℕ) (hlen : table.length = 128) (hall : ∀ key ∈ table, key ≠ 0) :
      table[scanCode]?.getD unknown ≠ 0 := by
    rw [List.getElem?_eq_getElem (hlen ▸ h), Option.getD_some]
    exact hall _ (List.getElem_mem _)
  unfold Modifiers.key
  split_ifs
  · exact htable uppercase length_uppercase (by decide +kernel)
  · exact htable lowercase length_lowercase (by decide +kernel)

/-- The keyboard passes no NUL on. -/
theorem keybHandler_ne_zero {mods : Modifiers} {first second c : UInt8}
    (h : (keybHandler mods first second).2 = some c) : c ≠ 0 := by
  have hkey := mods.key_ne_zero (Nat.mod_lt first.toNat (show 0 < 128 by decide))
  unfold keybHandler at h
  dsimp only at h
  split_ifs at h
  obtain rfl : UInt8.ofNat (mods.key (first.toNat % 128)) = c := Option.some.inj h
  intro hzero
  have hmod : mods.key (first.toNat % 128) % 2 ^ 8 = 0 := congrArg UInt8.toNat hzero
  omega

end MasterOS.Console
