/-
# The line being edited

What the keys other than Enter do to the line buffer: a backspace takes the last character
back, any other key goes to the end of a line that is not full. Each of them prints what it
did, and leaves the rest of the shell alone.
-/

import MasterOS.Console.Commands

namespace MasterOS.Console

/-- What a key other than Enter makes of a line. -/
def editLine (line : List UInt8) (c : UInt8) : List UInt8 :=
  if c = 0x08 then line.dropLast else if line.length < 255 then line ++ [c] else line

/-- What a key other than Enter prints. -/
def echoOf (line : List UInt8) (c : UInt8) : List UInt8 :=
  if c = 0x08 then (if line = [] then [] else [c]) else if line.length < 255 then [c] else []

/-- The buffer holds a line. -/
structure Shell.Buffers (s : Shell) (line : List UInt8) : Prop where
  len : s.shellLen = line.length
  room : line.length < shellBufferSize
  buf : ∀ (k : ℕ) c, (line)[k]? = some c → s.shellBuf k = c

variable {s : Shell} {line : List UInt8}

theorem Shell.Buffers.erase (h : s.Buffers line) (screen : Screen) :
    Shell.Buffers { s with shellLen := s.shellLen - 1, screen := screen } line.dropLast where
  len := by
    show s.shellLen - 1 = line.dropLast.length
    rw [h.len, List.length_dropLast]
  room := by
    rw [List.length_dropLast]
    exact (Nat.sub_le _ _).trans_lt h.room
  buf := by
    intro k d hk
    rw [List.getElem?_dropLast] at hk
    split_ifs at hk
    exact h.buf k d hk

theorem Shell.Buffers.append (h : s.Buffers line) (hroom : line.length < 255) (c : UInt8)
    (screen : Screen) :
    Shell.Buffers
      { s with
        shellBuf := Function.update s.shellBuf s.shellLen c
        shellLen := s.shellLen + 1
        screen := screen }
      (line ++ [c]) where
  len := by
    show s.shellLen + 1 = (line ++ [c]).length
    rw [h.len, List.length_append, List.length_singleton]
  room := by
    rw [List.length_append]
    exact Nat.succ_lt_succ hroom
  buf := by
    intro k d hk
    show Function.update s.shellBuf s.shellLen c k = d
    rw [h.len]
    rcases Nat.lt_trichotomy k line.length with hlt | rfl | hgt
    · rw [List.getElem?_append_left hlt] at hk
      rw [Function.update_of_ne hlt.ne]
      exact h.buf k d hk
    · rw [List.getElem?_concat_length] at hk
      rw [Function.update_self]
      exact Option.some.inj hk
    · rw [List.getElem?_eq_none (by rw [List.length_append]; exact hgt)] at hk
      cases hk

/-- Nothing printed is nothing done. -/
theorem Screen.print_nil (screen : Screen) : screen.print [] = screen := rfl

/-- **What a key other than Enter does.** -/
theorem Shell.Buffers.key (h : s.Buffers line) (w : World) {c : UInt8} (hc : c ≠ 0x0A) :
    (shellHandleChar w c s).Gives fun s' => s'.Buffers (editLine line c) ∧
      s'.screen = s.screen.print (echoOf line c) ∧ s'.history = s.history := by
  rw [shellHandleChar, if_neg hc, editLine, echoOf]
  by_cases hback : c = 0x08
  · rw [if_pos hback, if_pos hback, if_pos hback]
    by_cases hnil : line = []
    · have hlen : ¬ 0 < s.shellLen := by rw [h.len, hnil]; exact Nat.lt_irrefl 0
      rw [if_neg hlen, if_pos hnil, hnil]
      have hempty : s.Buffers [] := hnil ▸ h
      exact ⟨s, rfl, hempty, (Screen.print_nil _).symm, rfl⟩
    · have hlen : 0 < s.shellLen := h.len ▸ List.length_pos_iff.mpr hnil
      rw [if_pos hlen, if_neg hnil, hback]
      exact ⟨_, rfl, h.erase _, rfl, rfl⟩
  · have hroom : s.shellLen < shellBufferSize - 1 ↔ line.length < 255 := by rw [h.len]; rfl
    rw [if_neg hback, if_neg hback, if_neg hback]
    by_cases hlt : line.length < 255
    · rw [if_pos (hroom.mpr hlt), if_pos hlt, if_pos hlt, storeChar_of_lt (h.len ▸ h.room),
        Outcome.ok_bind]
      exact ⟨_, rfl, h.append hlt c _, rfl, rfl⟩
    · rw [if_neg (mt hroom.mp hlt), if_neg hlt, if_neg hlt]
      exact ⟨s, rfl, h, (Screen.print_nil _).symm, rfl⟩

end MasterOS.Console
