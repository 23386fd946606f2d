/-
# The interrupt controllers

Two controllers of eight lines each, the second on a line of the first. A line that asks is held
until the processor takes its interrupt; then it is in service until the processor ends it, and
holds back itself and every line behind it. Both controllers are set up, masked, and told of the
end of an interrupt through two ports.
-/

import MasterOS.Device.PortIo
import Mathlib.Data.Fintype.Pi
import Mathlib.Data.Fintype.Sum
import Mathlib.Data.UInt
import Mathlib.Logic.Function.Basic
import Mathlib.Tactic.DeriveFintype

namespace MasterOS.Device

/-! ## One controller -/

/-- The eight lines of a controller, each with a bit. -/
abbrev Lines := Fin 8 → Bool

/-- No line. -/
def noLines : Lines := fun _ => false

/-- A controller: the lines that ask, those in service, those that are masked, the vector of the
first line, the word for the cascade, and which word of the initialisation comes next. -/
structure Pic where
  irr : Lines
  isr : Lines
  imr : Lines
  base : UInt8
  cascade : UInt8
  expect : ℕ

namespace Pic

variable (p : Pic)

/-- The end of the service of the line that comes first among those in service. -/
def endOfInterrupt : Pic :=
  match Fin.find? p.isr with
  | some i => { p with isr := Function.update p.isr i false }
  | none => p

/-- A byte to the first port: the begin of the initialisation, or the end of an interrupt. -/
def command (value : UInt8) : Pic :=
  if value &&& 0x10 ≠ 0 then { p with irr := noLines, isr := noLines, imr := noLines, expect := 2 }
  else if value = 0x20 then p.endOfInterrupt
  else p

/-- A byte to the second port: the words of the initialisation in turn, then the mask. -/
def data (value : UInt8) : Pic :=
  match p.expect with
  | 2 => { p with base := value &&& 0xF8, expect := 3 }
  | 3 => { p with cascade := value, expect := 4 }
  | 4 => { p with expect := 0 }
  | _ => { p with imr := fun i => value.toNat.testBit i }

/-- The line that the controller asks the processor for: the first that asks and is not masked, if
no line up to it is in service. -/
def requested : Option (Fin 8) :=
  (Fin.find? fun i => p.irr i && !p.imr i).filter fun i => ∀ j ≤ i, p.isr j = false

/-- A line goes into service. -/
def serve (i : Fin 8) : Pic :=
  { p with irr := Function.update p.irr i false, isr := Function.update p.isr i true }

/-- The vector of a line. -/
def vector (i : Fin 8) : UInt8 := p.base + .ofNat i

theorem requested_eq_some_iff {i : Fin 8} : p.requested = some i ↔
    p.irr i = true ∧ p.imr i = false ∧ (∀ j < i, p.irr j = false ∨ p.imr j = true) ∧
      ∀ j ≤ i, p.isr j = false := by
  rw [requested, Option.filter_eq_some_iff, Fin.find?_eq_some_iff]
  simp only [Bool.and_eq_true, Bool.not_eq_true', decide_eq_true_eq, and_assoc,
    Bool.and_eq_false_iff, Bool.not_eq_false']

theorem requested_isSome (h : ∀ i, p.isr i = false) {i : Fin 8} (hask : p.irr i = true)
    (hmask : p.imr i = false) : p.requested.isSome := by
  have hfind : (Fin.find? fun i => p.irr i && !p.imr i).isSome :=
    Fin.isSome_find?_of_eq_true (by rw [hask, hmask]; rfl)
  obtain ⟨j, hj⟩ := Option.isSome_iff_exists.mp hfind
  rw [requested, hj]
  simp [h]

/-- No line that asks comes before the one that is requested. -/
theorem requested_le {p : Pic} {i j : Fin 8} (h : p.requested = some i)
    (hopen : ∀ i, p.imr i = false) (hj : p.irr j = true) : i ≤ j := by
  obtain ⟨-, -, hfirst, -⟩ := p.requested_eq_some_iff.mp h
  by_contra hlt
  rcases hfirst j (not_le.mp hlt) with hnot | hmasked
  · rw [hnot] at hj
    cases hj
  · rw [hopen j] at hmasked
    cases hmasked

/-- A single line. -/
def only (i : Fin 8) : Lines := fun j => decide (j = i)

theorem endOfInterrupt_only {p : Pic} {i : Fin 8} (h : p.isr = only i) :
    p.endOfInterrupt = { p with isr := noLines } := by
  have hfind : ∀ i : Fin 8, Fin.find? (only i) = some i := by decide
  have hclear : ∀ i : Fin 8, Function.update (only i) i false = noLines := by decide
  rw [endOfInterrupt, h, hfind]
  dsimp only
  rw [hclear]

theorem endOfInterrupt_none {p : Pic} (h : p.isr = noLines) : p.endOfInterrupt = p := by
  have hfind : Fin.find? noLines = none := by decide
  rw [endOfInterrupt, h, hfind]

theorem update_noLines (i : Fin 8) : Function.update noLines i true = only i := by
  revert i
  decide

end Pic

/-! ## Two controllers -/

/-- The two controllers of the machine. -/
structure Pics where
  master : Pic
  slave : Pic

/-- A line of one of them. -/
inductive Line
  | master (i : Fin 8)
  | slave (i : Fin 8)
  deriving DecidableEq, Fintype

/-- The order in which lines are served: the slave's come between the second and the fourth line of
the master. -/
def Line.rank : Line → ℕ
  | .master i => if i.val < 2 then i.val else i.val + 8
  | .slave i => i.val + 2

theorem cascade_lt : 2 < 8 := by decide

/-- The line of the master that the slave is on. -/
def cascadeLine : Fin 8 := ⟨2, cascade_lt⟩

namespace Pics

variable (ps : Pics)

/-- Whether a line asks. -/
def asks : Line → Bool
  | .master i => ps.master.irr i
  | .slave i => ps.slave.irr i

/-- A device raises its line. -/
def raise : Line → Pics
  | .master i =>
      { ps with master := { ps.master with irr := Function.update ps.master.irr i true } }
  | .slave i => { ps with slave := { ps.slave with irr := Function.update ps.slave.irr i true } }

/-- Whether both have been told how they are connected. -/
def linked : Bool := ps.master.cascade.toNat.testBit cascadeLine && ps.slave.cascade == 2

/-- The master, with its line to the slave as the slave drives it. -/
def driven : Pic :=
  { ps.master with irr :=
      Function.update ps.master.irr cascadeLine (ps.linked && ps.slave.requested.isSome) }

theorem driven_cascade :
    ps.driven.irr cascadeLine = (ps.linked && ps.slave.requested.isSome) := by
  show Function.update ps.master.irr cascadeLine _ cascadeLine = _
  exact Function.update_self ..

theorem driven_of_ne {i : Fin 8} (h : i ≠ cascadeLine) :
    ps.driven.irr i = ps.master.irr i := Function.update_of_ne h ..

/-- The line that the processor is interrupted for, if it is: what the master asks for, or what the
slave asks the master for. -/
def requested : Option Line :=
  ps.driven.requested.bind fun i =>
    if i = cascadeLine then ps.slave.requested.map Line.slave else some (.master i)

/-- The processor takes the interrupt of a line. -/
def acknowledge : Line → Pics
  | .master i => { ps with master := ps.master.serve i }
  | .slave i => ⟨ps.master.serve cascadeLine, ps.slave.serve i⟩

/-- The vector that it is given. -/
def vector : Line → UInt8
  | .master i => ps.master.vector i
  | .slave i => ps.slave.vector i

/-- It takes an interrupt that is no longer there: it is given the last vector of a controller, of
which no line goes into service. -/
def acknowledgeSpurious : Bool → UInt8 × Pics
  | false => (ps.master.vector (Fin.last 7), ps)
  | true => (ps.slave.vector (Fin.last 7), { ps with master := ps.master.serve cascadeLine })

end Pics

/-- The controllers behind their ports. -/
def picsDevice : PortDevice Pics where
  inB ps _ := (0, ps)
  inW ps _ := (0, ps)
  outB ps port value :=
    if port = 0x20 then { ps with master := ps.master.command value }
    else if port = 0x21 then { ps with master := ps.master.data value }
    else if port = 0xA0 then { ps with slave := ps.slave.command value }
    else if port = 0xA1 then { ps with slave := ps.slave.data value }
    else ps
  outW ps _ _ := ps

end MasterOS.Device
