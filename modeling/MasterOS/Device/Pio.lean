/-
# Reading and writing through the ports

`ata.c` as programs over ports: the two waits, the probe of a drive, and the transfer of
sectors, a word at a time. The programs of the FAT driver, which know blocks only, are
compiled to them by giving each access to `ata_read` or `ata_write`.

A drive that only answers its status port is the one over which `ata_write` was looked at
before, and there the two agree.
-/

import MasterOS.Device.Ata
import MasterOS.Device.PortIo
import MasterOS.Fat.Driver

namespace MasterOS.Pio

open MasterOS.Device MasterOS.Device.PortProg
open MasterOS.Ata (Bsy Drq Err Ports ataData ataCommand ataDriveHead ataMaster ataSlave
  ataCmdCacheFlush sectorWords setUp setUpRead)
open MasterOS.Fat (Sector)

/-! ## The code -/

/-- `ATA_STATUS`. -/
def ataStatus : ℕ := 0x1F7

/-- The loop of `ata_wait_bsy`, with the value of `timeout` it ends with. -/
def waitBsyLoop : (timeout : ℕ) → PortProg ℤ
  | 0 => do
      let status ← inPortB ataStatus
      .ret (if Bsy status then -1 else 0)
  | timeout + 1 => do
      let status ← inPortB ataStatus
      if Bsy status then waitBsyLoop timeout else .ret (timeout + 1)

/-- `ata_wait_bsy`. -/
def ataWaitBsy : PortProg ℤ := do
  let timeout ← waitBsyLoop 100000
  .ret (if 0 < timeout then 0 else -1)

/-- The loop of `ata_wait_drq`. -/
def waitDrqLoop : (timeout : ℕ) → PortProg ℤ
  | 0 => .ret (-1)
  | timeout + 1 => do
      let status ← inPortB ataStatus
      if Err status then .ret (-1)
      else if Drq status then .ret 0
      else waitDrqLoop timeout

/-- `ata_wait_drq`. -/
def ataWaitDrq : PortProg ℤ := waitDrqLoop 100000

/-- Read the status some times, for the delay. -/
def readStatus : ℕ → PortProg Unit
  | 0 => .ret ()
  | n + 1 => do
      let _ ← inPortB ataStatus
      readStatus n

/-- `ata_probe`. -/
def ataProbe (drive : UInt8) : PortProg ℤ := do
  outPortB ataDriveHead drive
  readStatus 4
  let status ← inPortB ataStatus
  .ret (if status = 0xFF ∨ status = 0x00 then -1 else 0)

/-- `ata_init`, with the value it leaves in `ata_drive`. -/
def ataInit (ataDrive : UInt8) : PortProg (ℤ × UInt8) := do
  let slave ← ataProbe ataSlave
  if slave = 0 then .ret (0, ataSlave)
  else do
    let master ← ataProbe ataMaster
    .ret (if master = 0 then (0, ataMaster) else (-1, ataDrive))

/-- `ptr[i] = word`, where `ptr` points at an offset of the buffer. -/
def storeWord (buf : ℕ → UInt8) (offset : ℕ) (word : UInt16) : ℕ → UInt8 := fun k =>
  if k = offset then word.toUInt8
  else if k = offset + 1 then (word >>> 8).toUInt8
  else buf k

/-- The inner loop of `ata_read`, from word `i` of sector `s` on. -/
def readWords (s : ℕ) : (left i : ℕ) → (ℕ → UInt8) → PortProg (ℕ → UInt8)
  | 0, _, buf => .ret buf
  | left + 1, i, buf => do
      let word ← inPortW ataData
      readWords s left (i + 1) (storeWord buf (s * 512 + 2 * i) word)

/-- The loop of `ata_read`, with `left` sectors still to read. -/
def readLoop : (left s : ℕ) → (ℕ → UInt8) → PortProg (ℤ × (ℕ → UInt8))
  | 0, _, buf => .ret (0, buf)
  | left + 1, s, buf => do
      let ready ← ataWaitBsy
      if ready ≠ 0 then .ret (-1, buf)
      else do
        let request ← ataWaitDrq
        if request ≠ 0 then .ret (-1, buf)
        else do
          let buf ← readWords s 256 0 buf
          readLoop left (s + 1) buf

/-- `ata_read`. -/
def ataRead (ataDrive : UInt8) (lba : UInt32) (count : UInt8) (buf : ℕ → UInt8) :
    PortProg (ℤ × (ℕ → UInt8)) := do
  let ready ← ataWaitBsy
  if ready ≠ 0 then .ret (-1, buf)
  else do
    outAll (setUpRead ataDrive lba count)
    readLoop count.toNat 0 buf

/-- The inner loop of `ata_write`. -/
def writeWords : List UInt16 → PortProg Unit
  | [] => .ret ()
  | word :: rest => do
      outPortW ataData word
      writeWords rest

/-- The loop of `ata_write`, with `left` sectors still to write. -/
def writeLoop (buf : ℕ → UInt8) : (left s : ℕ) → PortProg ℤ
  | 0, _ => .ret 0
  | left + 1, s => do
      let ready ← ataWaitBsy
      if ready ≠ 0 then .ret (-1)
      else do
        let request ← ataWaitDrq
        if request ≠ 0 then .ret (-1)
        else do
          writeWords (sectorWords buf s)
          outPortB ataCommand ataCmdCacheFlush
          let done ← ataWaitBsy
          if done ≠ 0 then .ret (-1) else writeLoop buf left (s + 1)

/-- `ata_write`. -/
def ataWrite (ataDrive : UInt8) (lba : UInt32) (count : UInt8) (buf : ℕ → UInt8) :
    PortProg ℤ := do
  let ready ← ataWaitBsy
  if ready ≠ 0 then .ret (-1)
  else do
    outAll (setUp ataDrive lba count)
    writeLoop buf count.toNat 0

/-- A program over blocks, through the ports: every access is of one sector, and is refused
when the function does not return 0. The buffer of a read may hold anything before. -/
def onPorts {ε α : Type} (ataDrive : UInt8) (buf : ℕ → UInt8) :
    Prog ℕ Sector ε α → PortProg (Except ε α)
  | .ret value => .ret (.ok value)
  | .stop fault => .ret (.error fault)
  | .read addr next => do
      let (r, out) ← ataRead ataDrive (UInt32.ofNat addr) 1 buf
      onPorts ataDrive buf (next (if r = 0 then some (.ofBytes out) else none))
  | .write addr block next => do
      let r ← ataWrite ataDrive (UInt32.ofNat addr) 1 block.byte
      onPorts ataDrive buf (next (r = 0))

/-! ## A drive that only answers its status port -/

/-- The drive that answers its status port with the bytes of a sequence. -/
def statusDevice (drive : ℕ → UInt8) : PortDevice Ports where
  inB p _ := Ata.inStatus drive p
  inW p _ := (0, p)
  outB p port value := p.outPortB port value
  outW p port value := p.outPortW port value

section StatusDevice

variable (drive : ℕ → UInt8) (p : Ports)

@[simp] theorem statusDevice_inB (port : ℕ) :
    (statusDevice drive).inB p port = Ata.inStatus drive p := rfl

@[simp] theorem statusDevice_outB (port : ℕ) (value : UInt8) :
    (statusDevice drive).outB p port value = p.outPortB port value := rfl

theorem run_waitBsyLoop (timeout : ℕ) :
    (waitBsyLoop timeout).run (statusDevice drive) p = Ata.waitBsyLoop drive timeout p := by
  induction timeout generalizing p with
  | zero =>
      rw [waitBsyLoop, Ata.waitBsyLoop, run_bind, run_inPortB, statusDevice_inB]
      by_cases hbusy : Bsy (Ata.inStatus drive p).1
      · rw [if_pos hbusy, if_pos hbusy, run_ret]
      · rw [if_neg hbusy, if_neg hbusy, run_ret]
  | succ timeout ih =>
      rw [waitBsyLoop, Ata.waitBsyLoop, run_bind, run_inPortB, statusDevice_inB]
      by_cases hbusy : Bsy (Ata.inStatus drive p).1
      · rw [if_pos hbusy, if_pos hbusy, ih]
      · rw [if_neg hbusy, if_neg hbusy, run_ret]

theorem run_ataWaitBsy :
    ataWaitBsy.run (statusDevice drive) p = Ata.ataWaitBsy drive p := by
  rw [ataWaitBsy, run_bind, run_waitBsyLoop]
  rfl

theorem run_waitDrqLoop (timeout : ℕ) :
    (waitDrqLoop timeout).run (statusDevice drive) p = Ata.waitDrqLoop drive timeout p := by
  induction timeout generalizing p with
  | zero => rfl
  | succ timeout ih =>
      rw [waitDrqLoop, Ata.waitDrqLoop, run_bind, run_inPortB, statusDevice_inB]
      by_cases herr : Err (Ata.inStatus drive p).1
      · rw [if_pos herr, if_pos herr, run_ret]
      · rw [if_neg herr, if_neg herr]
        by_cases hdrq : Drq (Ata.inStatus drive p).1
        · rw [if_pos hdrq, if_pos hdrq, run_ret]
        · rw [if_neg hdrq, if_neg hdrq, ih]

theorem run_ataWaitDrq :
    ataWaitDrq.run (statusDevice drive) p = Ata.ataWaitDrq drive p :=
  run_waitDrqLoop drive p 100000

theorem run_writeWords (words : List UInt16) :
    (writeWords words).run (statusDevice drive) p =
      ((), words.foldl (fun p word => p.outPortW ataData word) p) := by
  induction words generalizing p with
  | nil => rfl
  | cons word rest ih => exact ih (p.outPortW ataData word)

theorem run_writeLoop (buf : ℕ → UInt8) (left s : ℕ) :
    (writeLoop buf left s).run (statusDevice drive) p = Ata.writeLoop drive buf left s p := by
  induction left generalizing s p with
  | zero => rfl
  | succ left ih =>
      rw [writeLoop, Ata.writeLoop, run_bind, run_ataWaitBsy]
      by_cases hready : (Ata.ataWaitBsy drive p).1 ≠ 0
      · rw [if_pos hready, run_ret]
        exact (if_pos hready).symm
      · rw [if_neg hready, run_bind, run_ataWaitDrq]
        refine Eq.trans ?_ (if_neg hready).symm
        by_cases hrequest : (Ata.ataWaitDrq drive (Ata.ataWaitBsy drive p).2).1 ≠ 0
        · rw [if_pos hrequest, run_ret]
          exact (if_pos hrequest).symm
        · rw [if_neg hrequest, run_bind, run_writeWords, run_bind, run_outPortB, run_bind,
            statusDevice_outB, run_ataWaitBsy]
          refine Eq.trans ?_ (if_neg hrequest).symm
          dsimp only
          split_ifs
          · rfl
          · exact ih _ _

/-- **The two readings of `ata_write` agree.** -/
theorem run_ataWrite (ataDrive : UInt8) (lba : UInt32) (count : UInt8) (buf : ℕ → UInt8) :
    (ataWrite ataDrive lba count buf).run (statusDevice drive) p =
      Ata.ataWrite drive ataDrive lba count buf p := by
  rw [ataWrite, Ata.ataWrite, run_bind, run_ataWaitBsy]
  by_cases hready : (Ata.ataWaitBsy drive p).1 ≠ 0
  · rw [if_pos hready, run_ret]
    exact (if_pos hready).symm
  · rw [if_neg hready, run_bind, run_outAll, run_writeLoop]
    exact (if_neg hready).symm

end StatusDevice

end MasterOS.Pio
