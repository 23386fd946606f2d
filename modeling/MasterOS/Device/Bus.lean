/-
# Drives on a bus

Two drives share the ports, and a bit of the head register selects one. A drive takes commands
and register bytes only when it is neither busy nor in the middle of a transfer. A command
keeps it busy for a while, and it may then let some more polls pass before it asks for data or
reports an error; how long each takes is left open. The words of a sector pass when the drive
asks for them, at no other time. A sector that is not there ends a read before its words are
sent, and a write after its words were taken.
-/

import MasterOS.Device.Pio

namespace MasterOS.Pio

open MasterOS.Device MasterOS.Device.PortProg
open MasterOS.Ata (Bsy Drq Err ataData ataSectorCount ataLbaLow ataLbaMid ataLbaHigh
  ataDriveHead ataCommand ataCmdReadPio ataCmdWritePio ataCmdCacheFlush)
open MasterOS.Fat (Sector Disk)

/-! ## The state of a bus -/

/-- The sectors of a drive. -/
structure Platter where
  size : ℕ
  content : Disk

/-- A sector is replaced. -/
def Platter.put (p : Platter) (lba : ℕ) (sector : Sector) : Platter :=
  { p with content := Function.update p.content lba sector }

/-- What a drive does once it is not busy. -/
inductive Phase
  | idle
  | failed
  | sending (lba left words : ℕ)
  | taking (lba left : ℕ) (words : List UInt16)

/-- What is left open about a bus: the status where there is no drive, for how many polls the
`n`-th piece of work keeps a drive busy and how many it lets pass afterwards, and the other
bits of a busy status. -/
structure Timing where
  floating : UInt8
  busyFor : ℕ → ℕ
  quietFor : ℕ → ℕ
  noise : ℕ → UInt8

/-- The drives, the slave under `true`, and what the selected one is doing. -/
structure Bus where
  drives : Bool → Option Platter
  registers : ℕ → UInt8
  phase : Phase
  busy : ℕ
  quiet : ℕ
  begun : ℕ

namespace Bus

variable (t : Timing) (b : Bus)

/-- The drive that the head register selects. -/
def slave : Bool := b.registers ataDriveHead &&& 0x10 ≠ 0

/-- The drive that is selected, if it is there. -/
def selected : Option Platter := b.drives b.slave

/-- The sector in the address registers. -/
def lba : ℕ :=
  (b.registers ataLbaLow).toNat + 2 ^ 8 * (b.registers ataLbaMid).toNat +
    2 ^ 16 * (b.registers ataLbaHigh).toNat + 2 ^ 24 * ((b.registers ataDriveHead).toNat % 16)

/-- The number of sectors of a command, where 0 stands for 256. -/
def count : ℕ :=
  if b.registers ataSectorCount = 0 then 256 else (b.registers ataSectorCount).toNat

/-- The drive takes commands and register bytes. -/
def Listens : Prop := b.busy = 0 ∧ (b.phase = .idle ∨ b.phase = .failed)

end Bus

instance (phase : Phase) : Decidable (phase = .idle) := by
  cases phase <;> first | exact isTrue rfl | exact isFalse (by simp)

instance (phase : Phase) : Decidable (phase = .failed) := by
  cases phase <;> first | exact isTrue rfl | exact isFalse (by simp)

instance (b : Bus) : Decidable b.Listens := inferInstanceAs (Decidable (_ ∧ _))

/-! ## What the ports do -/

/-- The status of a phase: the drive is ready, and asks for data or reports an error. -/
def Phase.status : Phase → UInt8
  | .idle => 0x50
  | .failed => 0x51
  | .sending _ _ _ | .taking _ _ _ => 0x58

/-- The phase of a read with `left` sectors to send. -/
def sendFrom (size lba left : ℕ) : Phase :=
  if left = 0 then .idle else if lba < size then .sending lba left 0 else .failed

/-- The phase of a write with `left` sectors to take. -/
def takeFrom (lba left : ℕ) : Phase := if left = 0 then .idle else .taking lba left []

/-- The word of a sector, the low byte first. -/
def sectorWord (sector : Sector) (i : ℕ) : UInt16 :=
  (sector.byte (2 * i)).toUInt16 ||| (sector.byte (2 * i + 1)).toUInt16 <<< 8

/-- The sector of 256 words. -/
def ofWords (words : List UInt16) : Sector := .ofBytes fun k =>
  if k % 2 = 0 then (words.getD (k / 2) 0).toUInt8 else (words.getD (k / 2) 0 >>> 8).toUInt8

namespace Bus

variable (t : Timing) (b : Bus)

/-- The status port. -/
def status : UInt8 :=
  match b.selected with
  | none => t.floating
  | some _ =>
      if 0 < b.busy then 0x80 ||| t.noise b.busy
      else if 0 < b.quiet then 0x50
      else b.phase.status

/-- Time passes with every poll. -/
def tick : Bus :=
  if 0 < b.busy then { b with busy := b.busy - 1 } else { b with quiet := b.quiet - 1 }

/-- Set out for a phase. -/
def work (phase : Phase) : Bus :=
  { b with
    phase := phase, busy := t.busyFor b.begun, quiet := t.quietFor b.begun, begun := b.begun + 1 }

/-- Put a byte into a register. -/
def setRegister (port : ℕ) (value : UInt8) : Bus :=
  { b with registers := Function.update b.registers port value }

/-- Change the drive that is selected. -/
def setSelected (p : Platter) : Bus :=
  { b with drives := Function.update b.drives b.slave (some p) }

/-- A command to the selected drive. -/
def command (value : UInt8) : Bus :=
  match b.selected with
  | none => b
  | some p =>
      if value = ataCmdReadPio then b.work t (sendFrom p.size b.lba b.count)
      else if value = ataCmdWritePio then b.work t (takeFrom b.lba b.count)
      else if value = ataCmdCacheFlush then b.work t .idle
      else b.work t .failed

/-- A byte is written to a port. -/
def outB (port : ℕ) (value : UInt8) : Bus :=
  if b.Listens then if port = ataCommand then b.command t value else b.setRegister port value
  else b

/-- A byte is read from a port. -/
def inB (port : ℕ) : UInt8 × Bus :=
  if port = ataStatus then (b.status t, b.tick) else (b.registers port, b)

/-- The drive sends a word. -/
def send : UInt16 × Bus :=
  match b.selected, b.phase with
  | some p, .sending lba left i =>
      (sectorWord (p.content lba) i,
        if i + 1 = 256 then b.work t (sendFrom p.size (lba + 1) (left - 1))
        else { b with phase := .sending lba left (i + 1) })
  | _, _ => (0, b)

/-- The drive keeps a sector that it has a place for. -/
def keep (p : Platter) (lba left : ℕ) (sector : Sector) : Bus :=
  if lba < p.size then
    (b.setSelected (p.put lba sector)).work t (takeFrom (lba + 1) (left - 1))
  else b.work t .failed

/-- The drive takes a word, and keeps the sector when it was the last one. -/
def take (word : UInt16) : Bus :=
  match b.selected, b.phase with
  | some p, .taking lba left words =>
      if words.length + 1 = 256 then b.keep t p lba left (ofWords (words ++ [word]))
      else { b with phase := .taking lba left (words ++ [word]) }
  | _, _ => b

/-- Words pass when the drive asks for them. -/
def Asks : Prop := b.busy = 0 ∧ b.quiet = 0

instance : Decidable b.Asks := inferInstanceAs (Decidable (_ ∧ _))

/-- A word is read from a port. -/
def inW (port : ℕ) : UInt16 × Bus :=
  if port = ataData ∧ b.Asks then b.send t else (0, b)

/-- A word is written to a port. -/
def outW (port : ℕ) (word : UInt16) : Bus :=
  if port = ataData ∧ b.Asks then b.take t word else b

end Bus

/-- The bus behind the ports. -/
def busDevice (t : Timing) : PortDevice Bus where
  inB b port := b.inB t port
  inW b port := b.inW t port
  outB b port value := b.outB t port value
  outW b port value := b.outW t port value

/-! ## Small facts -/

section Facts

variable (t : Timing) (b : Bus)

@[simp] theorem busDevice_inB (port : ℕ) : (busDevice t).inB b port = b.inB t port := rfl

@[simp] theorem busDevice_inW (port : ℕ) : (busDevice t).inW b port = b.inW t port := rfl

@[simp] theorem busDevice_outB (port : ℕ) (value : UInt8) :
    (busDevice t).outB b port value = b.outB t port value := rfl

@[simp] theorem busDevice_outW (port : ℕ) (value : UInt16) :
    (busDevice t).outW b port value = b.outW t port value := rfl

@[simp] theorem inB_ataStatus : b.inB t ataStatus = (b.status t, b.tick) := if_pos rfl

@[simp] theorem work_selected (phase : Phase) : (b.work t phase).selected = b.selected := rfl

@[simp] theorem tick_selected : b.tick.selected = b.selected := by
  rw [Bus.tick]
  split_ifs <;> rfl

end Facts

/-- Every piece of work is done before the driver gives up. -/
def Timely (t : Timing) : Prop := ∀ n, t.busyFor n < 100000 ∧ t.quietFor n < 100000

/-- Two drives of one sector each, one of them of ones. -/
def twoDrives : Bus where
  drives slave := some ⟨1, fun _ => .ofBytes fun _ => if slave then 1 else 0⟩
  registers _ := 0
  phase := .idle
  busy := 0
  quiet := 0
  begun := 0

/-- A master of four sectors of ones, and no slave. -/
def oneDrive : Bus :=
  { twoDrives with
    drives := fun slave => if slave then none else some ⟨4, fun _ => .ofBytes fun _ => 1⟩ }

/-- A bus without drives. -/
def noDrive : Bus := { twoDrives with drives := fun _ => none }

/-- Drives that are busy for a while, and shorter every second time. -/
def slow : Timing where
  floating := 0x00
  busyFor n := 900 - 500 * (n % 2)
  quietFor _ := 3
  noise _ := 0x51

/-- A bus that is never busy. -/
def prompt : Timing where
  floating := 0xFF
  busyFor _ := 0
  quietFor _ := 0
  noise _ := 0

end MasterOS.Pio
