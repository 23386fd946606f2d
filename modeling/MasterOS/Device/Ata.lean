/-
# Writing to the drive

`ata_write` and its two waits over a drive that answers every read of the status port with
the next byte of a sequence. The wait for `BSY` looks at that bit alone, the wait for `DRQ`
looks at `ERR` first. A status with `ERR` set that ends the wait after the flush of a sector
is therefore taken for a success.
-/

import Mathlib.Algebra.Group.Nat.Defs
import Mathlib.Data.Int.Notation
import Mathlib.Data.List.Basic

namespace MasterOS.Ata

/-! ## Ports -/

/-- What the driver does with a port: a read of the status with its answer, or a write. -/
inductive PortEvent
  | status (value : UInt8)
  | byte (port : ℕ) (value : UInt8)
  | word (port : ℕ) (value : UInt16)

/-- The number of answers the drive has given, and what was done with the ports so far. -/
structure Ports where
  answered : ℕ
  trace : List PortEvent

/-- `ATA_DATA`. -/
def ataData : ℕ := 0x1F0

/-- `ATA_ERROR`. -/
def ataError : ℕ := 0x1F1

/-- `ATA_SECTOR_COUNT`. -/
def ataSectorCount : ℕ := 0x1F2

/-- `ATA_LBA_LOW`. -/
def ataLbaLow : ℕ := 0x1F3

/-- `ATA_LBA_MID`. -/
def ataLbaMid : ℕ := 0x1F4

/-- `ATA_LBA_HIGH`. -/
def ataLbaHigh : ℕ := 0x1F5

/-- `ATA_DRIVE_HEAD`. -/
def ataDriveHead : ℕ := 0x1F6

/-- `ATA_COMMAND`. -/
def ataCommand : ℕ := 0x1F7

/-- `ATA_CMD_WRITE_PIO`. -/
def ataCmdWritePio : UInt8 := 0x30

/-- `ATA_CMD_CACHE_FLUSH`. -/
def ataCmdCacheFlush : UInt8 := 0xE7

/-- `ATA_SR_BSY` is set. -/
def Bsy (status : UInt8) : Prop := status &&& 0x80 ≠ 0

/-- `ATA_SR_DRQ` is set. -/
def Drq (status : UInt8) : Prop := status &&& 0x08 ≠ 0

/-- `ATA_SR_ERR` is set. -/
def Err (status : UInt8) : Prop := status &&& 0x01 ≠ 0

instance (status : UInt8) : Decidable (Bsy status) := inferInstanceAs (Decidable (_ ≠ _))

instance (status : UInt8) : Decidable (Drq status) := inferInstanceAs (Decidable (_ ≠ _))

instance (status : UInt8) : Decidable (Err status) := inferInstanceAs (Decidable (_ ≠ _))

/-- `outPortB`. -/
def Ports.outPortB (p : Ports) (port : ℕ) (value : UInt8) : Ports :=
  { p with trace := p.trace ++ [.byte port value] }

/-- `outPortW`. -/
def Ports.outPortW (p : Ports) (port : ℕ) (value : UInt16) : Ports :=
  { p with trace := p.trace ++ [.word port value] }

/-! ## The code -/

section Code

variable (drive : ℕ → UInt8)

/-- `inPortB(ATA_STATUS)`. -/
def inStatus (p : Ports) : UInt8 × Ports :=
  (drive p.answered, ⟨p.answered + 1, p.trace ++ [.status (drive p.answered)]⟩)

/-- The loop of `ata_wait_bsy`, with the value of `timeout` it ends with: an answer that is
busy counts it down, below zero when it is zero. -/
def waitBsyLoop : (timeout : ℕ) → Ports → ℤ × Ports
  | 0, p =>
      if Bsy (inStatus drive p).1 then (-1, (inStatus drive p).2)
      else (0, (inStatus drive p).2)
  | timeout + 1, p =>
      if Bsy (inStatus drive p).1 then waitBsyLoop timeout (inStatus drive p).2
      else ((timeout : ℤ) + 1, (inStatus drive p).2)

/-- `ata_wait_bsy`. -/
def ataWaitBsy (p : Ports) : ℤ × Ports :=
  (if 0 < (waitBsyLoop drive 100000 p).1 then 0 else -1, (waitBsyLoop drive 100000 p).2)

/-- The loop of `ata_wait_drq`. -/
def waitDrqLoop : (timeout : ℕ) → Ports → ℤ × Ports
  | 0, p => (-1, p)
  | timeout + 1, p =>
      if Err (inStatus drive p).1 then (-1, (inStatus drive p).2)
      else if Drq (inStatus drive p).1 then (0, (inStatus drive p).2)
      else waitDrqLoop timeout (inStatus drive p).2

/-- `ata_wait_drq`. -/
def ataWaitDrq (p : Ports) : ℤ × Ports := waitDrqLoop drive 100000 p

/-- The words of a sector of the buffer, the low byte first. -/
def sectorWords (buf : ℕ → UInt8) (s : ℕ) : List UInt16 :=
  (List.range 256).map fun i =>
    (buf (s * 512 + 2 * i)).toUInt16 ||| (buf (s * 512 + 2 * i + 1)).toUInt16 <<< 8

/-- The loop of `ata_write`, with `left` sectors still to write. -/
def writeLoop (buf : ℕ → UInt8) : (left s : ℕ) → Ports → ℤ × Ports
  | 0, _, p => (0, p)
  | left + 1, s, p =>
      let ready := ataWaitBsy drive p
      if ready.1 ≠ 0 then (-1, ready.2)
      else
        let request := ataWaitDrq drive ready.2
        if request.1 ≠ 0 then (-1, request.2)
        else
          let p := (sectorWords buf s).foldl (fun p word => p.outPortW ataData word) request.2
          let done := ataWaitBsy drive (p.outPortB ataCommand ataCmdCacheFlush)
          if done.1 ≠ 0 then (-1, done.2) else writeLoop buf left (s + 1) done.2

/-- What `ata_write` tells the drive before the sectors. -/
def setUp (ataDrive : UInt8) (lba : UInt32) (count : UInt8) : List (ℕ × UInt8) :=
  [(ataDriveHead, ataDrive ||| ((lba >>> 24) &&& 0x0F).toUInt8), (ataError, 0x00),
    (ataSectorCount, count), (ataLbaLow, lba.toUInt8), (ataLbaMid, (lba >>> 8).toUInt8),
    (ataLbaHigh, (lba >>> 16).toUInt8), (ataCommand, ataCmdWritePio)]

/-- `ata_write`. -/
def ataWrite (ataDrive : UInt8) (lba : UInt32) (count : UInt8) (buf : ℕ → UInt8) (p : Ports) :
    ℤ × Ports :=
  let ready := ataWaitBsy drive p
  if ready.1 ≠ 0 then (-1, ready.2)
  else
    let p := (setUp ataDrive lba count).foldl (fun p out => p.outPortB out.1 out.2) ready.2
    writeLoop drive buf count.toNat 0 p

end Code

/-! ## The address registers -/

/-- `ATA_MASTER`. -/
def ataMaster : UInt8 := 0xE0

/-- `ATA_SLAVE`. -/
def ataSlave : UInt8 := 0xF0

/-- `ATA_CMD_READ_PIO`. -/
def ataCmdReadPio : UInt8 := 0x20

/-- What `ata_read` tells the drive before the sectors. -/
def setUpRead (ataDrive : UInt8) (lba : UInt32) (count : UInt8) : List (ℕ × UInt8) :=
  [(ataDriveHead, ataDrive ||| ((lba >>> 24) &&& 0x0F).toUInt8), (ataError, 0x00),
    (ataSectorCount, count), (ataLbaLow, lba.toUInt8), (ataLbaMid, (lba >>> 8).toUInt8),
    (ataLbaHigh, (lba >>> 16).toUInt8), (ataCommand, ataCmdReadPio)]

/-- The byte that a port was given last. -/
def register (port : ℕ) : List (ℕ × UInt8) → UInt8
  | [] => 0
  | out :: outs => if outs.any (·.1 == port) then register port outs
      else if out.1 = port then out.2 else 0

/-- The sector that the drive takes from its address registers: three bytes, and of the head
register the lower half. -/
def sectorOf (outs : List (ℕ × UInt8)) : ℕ :=
  (register ataLbaLow outs).toNat + 2 ^ 8 * (register ataLbaMid outs).toNat +
    2 ^ 16 * (register ataLbaHigh outs).toNat +
    2 ^ 24 * ((register ataDriveHead outs).toNat % 16)

/-- The lower half of the head register is free for the address. -/
theorem head_toNat_mod {ataDrive : UInt8} (hdrive : ataDrive = ataMaster ∨ ataDrive = ataSlave)
    (lba : UInt32) :
    (ataDrive ||| ((lba >>> 24) &&& 0x0F).toUInt8).toNat % 16 = lba.toNat / 2 ^ 24 % 16 := by
  have hpiece : ((lba >>> 24) &&& 0x0F).toUInt8.toNat = lba.toNat / 2 ^ 24 % 2 ^ 4 := by
    rw [UInt32.toNat_toUInt8, UInt32.toNat_and, UInt32.toNat_shiftRight,
      show (0x0F : UInt32).toNat = 2 ^ 4 - 1 from rfl, Nat.and_two_pow_sub_one_eq_mod,
      Nat.shiftRight_eq_div_pow]
    exact Nat.mod_eq_of_lt (Nat.lt_trans (Nat.mod_lt _ (by decide)) (by decide : 2 ^ 4 < 2 ^ 8))
  have hor : ∀ n < 16, (ataMaster ||| UInt8.ofNat n).toNat % 16 = n ∧
      (ataSlave ||| UInt8.ofNat n).toNat % 16 = n := by decide
  have hlt : lba.toNat / 2 ^ 24 % 2 ^ 4 < 16 := Nat.mod_lt _ (by decide)
  rw [← UInt8.ofNat_toNat (x := ((lba >>> 24) &&& 0x0F).toUInt8), hpiece]
  rcases hdrive with rfl | rfl
  · exact (hor _ hlt).1
  · exact (hor _ hlt).2

/-- **The registers carry 28 bits of the address.** Both functions tell the drive the sector
with the lower 28 bits of the number they are given. -/
theorem sectorOf_setUp {ataDrive : UInt8} (hdrive : ataDrive = ataMaster ∨ ataDrive = ataSlave)
    (lba : UInt32) (count : UInt8) :
    sectorOf (setUp ataDrive lba count) = lba.toNat % 2 ^ 28 ∧
      sectorOf (setUpRead ataDrive lba count) = lba.toNat % 2 ^ 28 := by
  have hlow : lba.toUInt8.toNat = lba.toNat % 2 ^ 8 := UInt32.toNat_toUInt8 lba
  have hmid : (lba >>> 8).toUInt8.toNat = lba.toNat / 2 ^ 8 % 2 ^ 8 := by
    rw [UInt32.toNat_toUInt8, UInt32.toNat_shiftRight, Nat.shiftRight_eq_div_pow]
    rfl
  have hhigh : (lba >>> 16).toUInt8.toNat = lba.toNat / 2 ^ 16 % 2 ^ 8 := by
    rw [UInt32.toNat_toUInt8, UInt32.toNat_shiftRight, Nat.shiftRight_eq_div_pow]
    rfl
  have hsum : lba.toUInt8.toNat + 2 ^ 8 * (lba >>> 8).toUInt8.toNat +
      2 ^ 16 * (lba >>> 16).toUInt8.toNat +
      2 ^ 24 * ((ataDrive ||| ((lba >>> 24) &&& 0x0F).toUInt8).toNat % 16) =
        lba.toNat % 2 ^ 28 := by
    rw [head_toNat_mod hdrive, hlow, hmid, hhigh]
    omega
  exact ⟨hsum, hsum⟩

/-! ## What a write that returns 0 promises -/

/-- A word is sent. -/
def PortEvent.IsWord : PortEvent → Prop
  | .word _ _ => True
  | _ => False

/-- The course of a write: each sector's words directly after a status with `DRQ` set and `ERR`
clear, then the flush and the busy statuses up to the first that is not, which is one of `ends`. -/
inductive Transfers : (sectors : List (List UInt16)) → (ends : List UInt8) →
    (trace : List PortEvent) → Prop
  | done {trace : List PortEvent} (nothing : ∀ event ∈ trace, ¬ event.IsWord) :
      Transfers [] [] trace
  | sector {before : List PortEvent} {ready last : UInt8} {words : List UInt16}
      {busy : List UInt8} {sectors : List (List UInt16)} {ends : List UInt8}
      {rest : List PortEvent} (nothing : ∀ event ∈ before, ¬ event.IsWord)
      (request : Drq ready) (noError : ¬ Err ready) (waits : ∀ status ∈ busy, Bsy status)
      (ended : ¬ Bsy last) (others : Transfers sectors ends rest) :
      Transfers (words :: sectors) (last :: ends)
        (before ++ .status ready :: (words.map (.word ataData) ++
          .byte ataCommand ataCmdCacheFlush :: (busy.map .status ++ .status last :: rest)))

/-- If the write returns 0, its sectors were transferred, and no status that ends the wait
after a flush has `ERR` set. -/
def FailureReported (drive : ℕ → UInt8) (ataDrive : UInt8) (lba : UInt32) (count : UInt8)
    (buf : ℕ → UInt8) : Prop :=
  (ataWrite drive ataDrive lba count buf ⟨0, []⟩).1 = 0 →
    ∃ ends, Transfers ((List.range count.toNat).map (sectorWords buf)) ends
      (ataWrite drive ataDrive lba count buf ⟨0, []⟩).2.trace ∧ ∀ status ∈ ends, ¬ Err status

/-! ## What the drive answers -/

/-- From answer `i` on the drive is busy up to answer `k`, which comes in time. -/
structure BusyUntil (drive : ℕ → UInt8) (timeout i k : ℕ) : Prop where
  le : i ≤ k
  inTime : k < i + timeout
  busy : ∀ j, i ≤ j → j < k → Bsy (drive j)
  ready : ¬ Bsy (drive k)

/-- From answer `i` on the drive asks for data with answer `k`, in time and without an error. -/
structure AsksAt (drive : ℕ → UInt8) (timeout i k : ℕ) : Prop where
  le : i ≤ k
  inTime : k < i + timeout
  waits : ∀ j, i ≤ j → j < k → ¬ Err (drive j) ∧ ¬ Drq (drive j)
  noError : ¬ Err (drive k)
  request : Drq (drive k)

/-- From answer `i` on the drive lets some number of sectors through: it gets ready, asks for
the data, and gets ready again after the flush, with the answers numbered `ends`. -/
inductive LetsThrough (drive : ℕ → UInt8) : (count i : ℕ) → (ends : List ℕ) → Prop
  | done {i : ℕ} : LetsThrough drive 0 i []
  | sector {count i ready request last : ℕ} {ends : List ℕ}
      (first : BusyUntil drive 100000 i ready) (second : AsksAt drive 100000 (ready + 1) request)
      (third : BusyUntil drive 100000 (request + 1) last)
      (others : LetsThrough drive count (last + 1) ends) :
      LetsThrough drive (count + 1) i (last :: ends)

/-- A drive that lets all sectors through ends no flush with an error. -/
def FlushesClean (drive : ℕ → UInt8) (count : ℕ) : Prop :=
  ∀ ready ends, BusyUntil drive 100000 0 ready → LetsThrough drive count (ready + 1) ends →
    ∀ k ∈ ends, ¬ Err (drive k)

/-! ## One wait -/

section Waits

variable {drive : ℕ → UInt8}

/-- A drive that gets ready in time ends the wait. -/
theorem waitBsyLoop_of_busyUntil {timeout k : ℕ} {p : Ports}
    (h : BusyUntil drive timeout p.answered k) :
    0 < (waitBsyLoop drive timeout p).1 ∧ ∃ busy : List UInt8, (∀ status ∈ busy, Bsy status) ∧
      (waitBsyLoop drive timeout p).2 =
        ⟨k + 1, p.trace ++ (busy.map .status ++ [.status (drive k)])⟩ := by
  induction timeout generalizing p with
  | zero =>
      have := h.le
      have := h.inTime
      omega
  | succ timeout ih =>
      rw [waitBsyLoop]
      rcases Nat.eq_or_lt_of_le h.le with heq | hlt
      · have hready : ¬ Bsy (inStatus drive p).1 := by
          rw [inStatus, heq]
          exact h.ready
        rw [if_neg hready]
        refine ⟨by omega, [], nofun, ?_⟩
        rw [inStatus, heq]
        rfl
      · have hbusy : Bsy (inStatus drive p).1 := h.busy _ (Nat.le_refl _) hlt
        have hrest : BusyUntil drive timeout (inStatus drive p).2.answered k :=
          ⟨hlt, by have := h.inTime; dsimp only [inStatus]; omega,
            fun j hj => h.busy j (Nat.le_of_succ_le hj), h.ready⟩
        rw [if_pos hbusy]
        obtain ⟨hpos, busy, hall, hend⟩ := ih hrest
        refine ⟨hpos, drive p.answered :: busy, List.forall_mem_cons.mpr ⟨hbusy, hall⟩, ?_⟩
        rw [hend, inStatus, List.append_assoc]
        rfl

/-- A wait that ends well was for a drive that got ready in time. -/
theorem busyUntil_of_waitBsyLoop {timeout : ℕ} {p : Ports}
    (h : 0 < (waitBsyLoop drive timeout p).1) : ∃ k, BusyUntil drive timeout p.answered k := by
  induction timeout generalizing p with
  | zero =>
      rw [waitBsyLoop] at h
      by_cases hbusy : Bsy (inStatus drive p).1
      · rw [if_pos hbusy] at h
        cases h
      · rw [if_neg hbusy] at h
        cases h
  | succ timeout ih =>
      rw [waitBsyLoop] at h
      by_cases hbusy : Bsy (inStatus drive p).1
      · rw [if_pos hbusy] at h
        obtain ⟨k, hle, hlt, hall, hready⟩ := ih h
        dsimp only [inStatus] at hle hlt hall
        refine ⟨k, by omega, by omega, fun j hj hjk => ?_, hready⟩
        rcases Nat.eq_or_lt_of_le hj with rfl | hlt
        · exact hbusy
        · exact hall j hlt hjk
      · exact ⟨p.answered, Nat.le_refl _, by omega, fun j hj hjk => by omega, hbusy⟩

theorem ataWaitBsy_of_busyUntil {k : ℕ} {p : Ports} (h : BusyUntil drive 100000 p.answered k) :
    (ataWaitBsy drive p).1 = 0 ∧ ∃ busy : List UInt8, (∀ status ∈ busy, Bsy status) ∧
      (ataWaitBsy drive p).2 = ⟨k + 1, p.trace ++ (busy.map .status ++ [.status (drive k)])⟩ := by
  obtain ⟨hpos, hend⟩ := waitBsyLoop_of_busyUntil h
  exact ⟨if_pos hpos, hend⟩

theorem busyUntil_of_ataWaitBsy {p : Ports} (h : (ataWaitBsy drive p).1 = 0) :
    ∃ k, BusyUntil drive 100000 p.answered k := by
  rw [ataWaitBsy] at h
  by_cases hpos : 0 < (waitBsyLoop drive 100000 p).1
  · exact busyUntil_of_waitBsyLoop hpos
  · rw [if_neg hpos] at h
    cases h

/-- A drive that asks for data in time ends the wait. -/
theorem waitDrqLoop_of_asksAt {timeout k : ℕ} {p : Ports}
    (h : AsksAt drive timeout p.answered k) :
    (waitDrqLoop drive timeout p).1 = 0 ∧ ∃ waits : List UInt8,
      (waitDrqLoop drive timeout p).2 =
        ⟨k + 1, p.trace ++ (waits.map .status ++ [.status (drive k)])⟩ := by
  induction timeout generalizing p with
  | zero =>
      have := h.le
      have := h.inTime
      omega
  | succ timeout ih =>
      rw [waitDrqLoop]
      rcases Nat.eq_or_lt_of_le h.le with heq | hlt
      · have hstatus : (inStatus drive p).1 = drive k := by rw [inStatus, heq]
        rw [hstatus, if_neg h.noError, if_pos h.request]
        refine ⟨rfl, [], ?_⟩
        rw [inStatus, heq]
        rfl
      · obtain ⟨hnoError, hnoRequest⟩ := h.waits _ (Nat.le_refl _) hlt
        have hrest : AsksAt drive timeout (inStatus drive p).2.answered k :=
          ⟨hlt, by have := h.inTime; dsimp only [inStatus]; omega,
            fun j hj => h.waits j (Nat.le_of_succ_le hj), h.noError, h.request⟩
        have hstatus : (inStatus drive p).1 = drive p.answered := rfl
        rw [hstatus, if_neg hnoError, if_neg hnoRequest]
        obtain ⟨hzero, waits, hend⟩ := ih hrest
        refine ⟨hzero, drive p.answered :: waits, ?_⟩
        rw [hend, inStatus, List.append_assoc]
        rfl

/-- A wait for data that ends well was for a drive that asked in time. -/
theorem asksAt_of_waitDrqLoop {timeout : ℕ} {p : Ports}
    (h : (waitDrqLoop drive timeout p).1 = 0) : ∃ k, AsksAt drive timeout p.answered k := by
  induction timeout generalizing p with
  | zero => cases h
  | succ timeout ih =>
      rw [waitDrqLoop] at h
      by_cases herror : Err (inStatus drive p).1
      · rw [if_pos herror] at h
        cases h
      · rw [if_neg herror] at h
        by_cases hrequest : Drq (inStatus drive p).1
        · exact ⟨p.answered, Nat.le_refl _, by omega, fun j hj hjk => by omega, herror, hrequest⟩
        · rw [if_neg hrequest] at h
          obtain ⟨k, hle, hlt, hall, hnoError, hasked⟩ := ih h
          dsimp only [inStatus] at hle hlt hall
          refine ⟨k, by omega, by omega, fun j hj hjk => ?_, hnoError, hasked⟩
          rcases Nat.eq_or_lt_of_le hj with rfl | hlt
          · exact ⟨herror, hrequest⟩
          · exact hall j hlt hjk

end Waits

/-! ## The whole write -/

/-- Words sent one after the other. -/
theorem foldl_outPortW (words : List UInt16) (p : Ports) :
    words.foldl (fun p word => p.outPortW ataData word) p =
      ⟨p.answered, p.trace ++ words.map (.word ataData)⟩ := by
  induction words generalizing p with
  | nil => rw [List.foldl_nil, List.map_nil, List.append_nil]
  | cons word words ih =>
      rw [List.foldl_cons, ih, Ports.outPortW, List.append_assoc]
      rfl

/-- Bytes sent one after the other. -/
theorem foldl_outPortB (outs : List (ℕ × UInt8)) (p : Ports) :
    outs.foldl (fun p out => p.outPortB out.1 out.2) p =
      ⟨p.answered, p.trace ++ outs.map fun out => .byte out.1 out.2⟩ := by
  induction outs generalizing p with
  | nil => rw [List.foldl_nil, List.map_nil, List.append_nil]
  | cons out outs ih =>
      rw [List.foldl_cons, ih, Ports.outPortB, List.append_assoc]
      rfl

theorem not_isWord_status {statuses : List UInt8} :
    ∀ event ∈ statuses.map PortEvent.status, ¬ event.IsWord := by
  intro event hevent hword
  obtain ⟨status, -, rfl⟩ := List.mem_map.mp hevent
  exact hword

theorem not_isWord_append {before : List PortEvent} {ready : UInt8}
    (hbefore : ∀ event ∈ before, ¬ event.IsWord) :
    ∀ event ∈ before ++ [.status ready], ¬ event.IsWord := by
  intro event hevent
  rcases List.mem_append.mp hevent with hmem | hlast
  · exact hbefore event hmem
  · rw [List.mem_singleton.mp hlast]
    exact id

/-- What came before does not matter as long as no word was sent. -/
theorem Transfers.prepend {sectors : List (List UInt16)} {ends : List UInt8}
    {before trace : List PortEvent} (h : Transfers sectors ends trace)
    (hbefore : ∀ event ∈ before, ¬ event.IsWord) : Transfers sectors ends (before ++ trace) := by
  cases h with
  | done nothing =>
      exact .done fun event hevent => (List.mem_append.mp hevent).elim (hbefore event)
        (nothing event)
  | sector nothing request noError waits ended others =>
      rw [← List.append_assoc]
      exact .sector (fun event hevent => (List.mem_append.mp hevent).elim (hbefore event)
        (nothing event)) request noError waits ended others

/-- Lists that agree up to the first element of a kind. -/
theorem append_cons_inj {α : Type} {P : α → Prop} {l l' r r' : List α} {a a' : α}
    (hl : ∀ x ∈ l, ¬ P x) (hl' : ∀ x ∈ l', ¬ P x) (ha : P a) (ha' : P a')
    (h : l ++ a :: r = l' ++ a' :: r') : l = l' ∧ a = a' ∧ r = r' := by
  induction l generalizing l' with
  | nil =>
      cases l' with
      | nil =>
          injection h with hhead htail
          exact ⟨rfl, hhead, htail⟩
      | cons x l' =>
          injection h with hhead
          exact absurd (hhead ▸ ha) (hl' x List.mem_cons_self)
  | cons x l ih =>
      cases l' with
      | nil =>
          injection h with hhead
          exact absurd (hhead ▸ ha') (hl x List.mem_cons_self)
      | cons x' l' =>
          injection h with hhead htail
          obtain ⟨hsame, hrest⟩ := ih (fun y hy => hl y (List.mem_cons_of_mem x hy))
            (fun y hy => hl' y (List.mem_cons_of_mem x' hy)) htail
          exact ⟨by rw [hhead, hsame], hrest⟩

theorem Transfers.sector_inv {words : List UInt16} {sectors : List (List UInt16)}
    {ends : List UInt8} {trace : List PortEvent} (h : Transfers (words :: sectors) ends trace) :
    ∃ (before rest : List PortEvent) (ready last : UInt8) (busy others : List UInt8),
      (∀ event ∈ before, ¬ event.IsWord) ∧ (∀ status ∈ busy, Bsy status) ∧ ¬ Bsy last ∧
        ends = last :: others ∧ Transfers sectors others rest ∧
        trace = before ++ .status ready :: (words.map (.word ataData) ++
          .byte ataCommand ataCmdCacheFlush :: (busy.map .status ++ .status last :: rest)) := by
  cases h with
  | sector nothing request noError waits ended others =>
      exact ⟨_, _, _, _, _, _, nothing, waits, ended, rfl, others, rfl⟩

/-- A trace has one course. -/
theorem Transfers.ends_eq {sectors : List (List UInt16)} {ends ends' : List UInt8}
    {trace : List PortEvent} (hsectors : ∀ words ∈ sectors, words ≠ [])
    (h : Transfers sectors ends trace) (h' : Transfers sectors ends' trace) : ends = ends' := by
  induction sectors generalizing ends ends' trace with
  | nil =>
      cases h
      cases h'
      rfl
  | cons words sectors ih =>
      obtain ⟨hwords, hrest⟩ := List.forall_mem_cons.mp hsectors
      obtain ⟨w, words, rfl⟩ := List.exists_cons_of_ne_nil hwords
      obtain ⟨before, rest, ready, last, busy, others, hnothing, hbusy, hended, rfl, hothers,
        htrace⟩ := h.sector_inv
      obtain ⟨before', rest', ready', last', busy', others', hnothing', hbusy', hended', rfl,
        hothers', htrace'⟩ := h'.sector_inv
      -- the traces agree up to the sector's first word
      have hword : (PortEvent.word ataData w).IsWord := trivial
      rw [List.append_cons, List.map_cons, List.cons_append] at htrace htrace'
      obtain ⟨-, -, hsame⟩ := append_cons_inj (not_isWord_append hnothing)
        (not_isWord_append hnothing') hword hword (htrace.symm.trans htrace')
      injection List.append_cancel_left hsame with hflush hsame
      -- and from there up to the first status that is not busy
      have hwaits {busy : List UInt8} (hbusy : ∀ status ∈ busy, Bsy status) :
          ∀ event ∈ busy.map PortEvent.status, ¬ ∃ status, event = .status status ∧ ¬ Bsy status := by
        rintro event hevent ⟨status, rfl, hready⟩
        obtain ⟨status', hmem, heq⟩ := List.mem_map.mp hevent
        injection heq with heq
        exact hready (heq ▸ hbusy status' hmem)
      obtain ⟨-, hlast, hsame⟩ := append_cons_inj
        (P := fun event => ∃ status, event = .status status ∧ ¬ Bsy status)
        (hwaits hbusy) (hwaits hbusy') ⟨last, rfl, hended⟩ ⟨last', rfl, hended'⟩ hsame
      injection hlast with hlast
      rw [hlast, ih hrest hothers (hsame ▸ hothers')]

/-- The sectors that a drive lets through are transferred. -/
theorem writeLoop_of_letsThrough {drive : ℕ → UInt8} {buf : ℕ → UInt8} {left s i : ℕ} {p : Ports}
    {ends : List ℕ} (h : LetsThrough drive left i ends) (hi : p.answered = i) :
    (writeLoop drive buf left s p).1 = 0 ∧ ∃ rest,
      (writeLoop drive buf left s p).2.trace = p.trace ++ rest ∧
        Transfers ((List.range' s left).map (sectorWords buf)) (ends.map drive) rest := by
  induction h generalizing s p with
  | done => exact ⟨rfl, [], (List.append_nil _).symm, .done nofun⟩
  | @sector count i ready request last ends first second third others ih =>
      subst hi
      obtain ⟨hready, busy, -, hreadyEnd⟩ := ataWaitBsy_of_busyUntil first
      obtain ⟨hrequest, waits, hrequestEnd⟩ := waitDrqLoop_of_asksAt
        (p := (ataWaitBsy drive p).2) (by rw [hreadyEnd]; exact second)
      rw [writeLoop]
      dsimp only
      rw [if_neg (not_not.mpr hready), ataWaitDrq, if_neg (not_not.mpr hrequest), hrequestEnd,
        foldl_outPortW]
      generalize hsent : Ports.outPortB _ ataCommand ataCmdCacheFlush = sent
      have hsentAnswered : sent.answered = request + 1 := by rw [← hsent]; rfl
      obtain ⟨hdone, flushing, hflushing, hdoneEnd⟩ := ataWaitBsy_of_busyUntil
        (p := sent) (by rw [hsentAnswered]; exact third)
      rw [if_neg (not_not.mpr hdone), hdoneEnd]
      obtain ⟨hzero, rest, htrace, htransfers⟩ := ih (s := s + 1)
        (p := ⟨last + 1, sent.trace ++ (flushing.map .status ++ [.status (drive last)])⟩) rfl
      refine ⟨hzero, busy.map .status ++ [.status (drive ready)] ++ (waits.map .status ++
        .status (drive request) :: ((sectorWords buf s).map (.word ataData) ++
          .byte ataCommand ataCmdCacheFlush ::
            (flushing.map .status ++ .status (drive last) :: rest))), ?_, ?_⟩
      · rw [htrace, ← hsent, hreadyEnd]
        simp [Ports.outPortB]
      · refine Transfers.prepend ?_ ?_
        · exact .sector not_isWord_status second.request second.noError hflushing third.ready
            htransfers
        · exact not_isWord_append not_isWord_status

/-- A loop that ends well was for a drive that let all sectors through. -/
theorem letsThrough_of_writeLoop {drive : ℕ → UInt8} {buf : ℕ → UInt8} {left s : ℕ} {p : Ports}
    (h : (writeLoop drive buf left s p).1 = 0) :
    ∃ ends, LetsThrough drive left p.answered ends := by
  induction left generalizing s p with
  | zero => exact ⟨[], .done⟩
  | succ left ih =>
      rw [writeLoop] at h
      dsimp only at h
      by_cases hready : (ataWaitBsy drive p).1 = 0
      · rw [if_neg (not_not.mpr hready)] at h
        obtain ⟨ready, first⟩ := busyUntil_of_ataWaitBsy hready
        obtain ⟨-, busy, -, hreadyEnd⟩ := ataWaitBsy_of_busyUntil first
        by_cases hrequest : (ataWaitDrq drive (ataWaitBsy drive p).2).1 = 0
        · rw [if_neg (not_not.mpr hrequest)] at h
          obtain ⟨request, second⟩ := asksAt_of_waitDrqLoop hrequest
          obtain ⟨-, waits, hrequestEnd⟩ := waitDrqLoop_of_asksAt second
          rw [ataWaitDrq, hrequestEnd, foldl_outPortW] at h
          rw [hreadyEnd] at second
          generalize hsent : Ports.outPortB _ ataCommand ataCmdCacheFlush = sent at h
          have hsentAnswered : sent.answered = request + 1 := by rw [← hsent]; rfl
          by_cases hdone : (ataWaitBsy drive sent).1 = 0
          · rw [if_neg (not_not.mpr hdone)] at h
            obtain ⟨last, third⟩ := busyUntil_of_ataWaitBsy hdone
            obtain ⟨-, flushing, -, hdoneEnd⟩ := ataWaitBsy_of_busyUntil third
            obtain ⟨ends, others⟩ := ih h
            rw [hdoneEnd] at others
            rw [hsentAnswered] at third
            exact ⟨last :: ends, .sector first second third others⟩
          · rw [if_pos hdone] at h
            cases h
        · rw [if_pos hrequest] at h
          cases h
      · rw [if_pos hready] at h
        cases h

section Write

variable {drive : ℕ → UInt8} {count : UInt8}

/-- **What a write to a drive that lets it through does.** -/
theorem ataWrite_of_letsThrough {ready : ℕ} {ends : List ℕ}
    (hready : BusyUntil drive 100000 0 ready)
    (hends : LetsThrough drive count.toNat (ready + 1) ends) (ataDrive : UInt8) (lba : UInt32)
    (buf : ℕ → UInt8) :
    (ataWrite drive ataDrive lba count buf ⟨0, []⟩).1 = 0 ∧
      Transfers ((List.range count.toNat).map (sectorWords buf)) (ends.map drive)
        (ataWrite drive ataDrive lba count buf ⟨0, []⟩).2.trace := by
  obtain ⟨hzero, busy, -, hend⟩ := ataWaitBsy_of_busyUntil (p := ⟨0, []⟩) hready
  rw [ataWrite]
  dsimp only
  rw [if_neg (not_not.mpr hzero), hend, foldl_outPortB]
  generalize htrace : [] ++ _ ++ (setUp ataDrive lba count).map _ = trace
  have hquiet : ∀ event ∈ trace, ¬ event.IsWord := by
    intro event hevent
    rw [← htrace, List.nil_append] at hevent
    rcases List.mem_append.mp hevent with hwait | hcommand
    · exact not_isWord_append not_isWord_status event hwait
    · obtain ⟨out, -, rfl⟩ := List.mem_map.mp hcommand
      exact id
  obtain ⟨hloop, rest, hrest, htransfers⟩ :
      (writeLoop drive buf count.toNat 0 ⟨ready + 1, trace⟩).1 = 0 ∧ _ :=
    writeLoop_of_letsThrough hends rfl
  refine ⟨hloop, ?_⟩
  rw [hrest, List.range_eq_range']
  exact htransfers.prepend hquiet

/-- A write that returns 0 was to a drive that let it through. -/
theorem letsThrough_of_ataWrite {ataDrive : UInt8} {lba : UInt32} {buf : ℕ → UInt8}
    (h : (ataWrite drive ataDrive lba count buf ⟨0, []⟩).1 = 0) :
    ∃ ready ends, BusyUntil drive 100000 0 ready ∧
      LetsThrough drive count.toNat (ready + 1) ends := by
  rw [ataWrite] at h
  dsimp only at h
  by_cases hzero : (ataWaitBsy drive ⟨0, []⟩).1 = 0
  · rw [if_neg (not_not.mpr hzero)] at h
    obtain ⟨ready, hready⟩ := busyUntil_of_ataWaitBsy hzero
    obtain ⟨-, busy, -, hend⟩ := ataWaitBsy_of_busyUntil hready
    obtain ⟨ends, hends⟩ := letsThrough_of_writeLoop h
    rw [foldl_outPortB, hend] at hends
    exact ⟨ready, ends, hready, hends⟩
  · rw [if_pos hzero] at h
    cases h

theorem sectorWords_ne_nil {buf : ℕ → UInt8} {words : List UInt16} {n : ℕ}
    (h : words ∈ (List.range n).map (sectorWords buf)) : words ≠ [] := by
  obtain ⟨s, -, rfl⟩ := List.mem_map.mp h
  exact List.ne_nil_of_length_pos (by rw [sectorWords, List.length_map, List.length_range]; decide)

end Write

/-- **When a failed write is reported.** Whatever the drive answers, a write that returns 0
has sent every word after a request without an error, and has seen no flush end with an error,
exactly when the drive ends no flush with an error or lets not all sectors through. -/
theorem failureReported_iff (drive : ℕ → UInt8) (ataDrive : UInt8) (lba : UInt32) (count : UInt8)
    (buf : ℕ → UInt8) :
    FailureReported drive ataDrive lba count buf ↔ FlushesClean drive count.toNat := by
  constructor
  · intro hreported ready ends hready hends k hk
    obtain ⟨hzero, htransfers⟩ := ataWrite_of_letsThrough hready hends ataDrive lba buf
    obtain ⟨statuses, hstatuses, hclean⟩ := hreported hzero
    have hsame := Transfers.ends_eq (fun words => sectorWords_ne_nil) htransfers hstatuses
    exact hclean _ (hsame ▸ List.mem_map_of_mem hk)
  · intro hclean hzero
    obtain ⟨ready, ends, hready, hends⟩ := letsThrough_of_ataWrite hzero
    refine ⟨ends.map drive, (ataWrite_of_letsThrough hready hends ataDrive lba buf).2, ?_⟩
    intro status hstatus
    obtain ⟨k, hk, rfl⟩ := List.mem_map.mp hstatus
    exact hclean ready ends hready hends k hk

/-- A drive that reports a failed flush of its only sector: the write returns 0. -/
theorem not_failureReported :
    (ataWrite (fun n => if n = 2 then 0x58 else if n = 3 then 0x51 else 0x50) 0xF0 0 1
      (fun _ => 0) ⟨0, []⟩).1 = 0 ∧
    ¬ FailureReported (fun n => if n = 2 then 0x58 else if n = 3 then 0x51 else 0x50) 0xF0 0 1
      (fun _ => 0) := by
  generalize hdrive : (fun n : ℕ => if n = 2 then (0x58 : UInt8) else if n = 3 then 0x51 else 0x50) =
    drive
  have hat (n : ℕ) : drive n = if n = 2 then 0x58 else if n = 3 then 0x51 else 0x50 := by
    rw [← hdrive]
  have hready (k : ℕ) (hne : k ≠ 2) : BusyUntil drive 100000 k k :=
    ⟨Nat.le_refl k, by omega, fun j hj hjk => by omega, by
      rw [hat, if_neg hne]
      by_cases hk : k = 3
      · rw [if_pos hk]
        decide
      · rw [if_neg hk]
        decide⟩
  have hasks : AsksAt drive 100000 2 2 :=
    ⟨Nat.le_refl 2, by omega, fun j hj hjk => by omega, by rw [hat]; decide, by rw [hat]; decide⟩
  have hends : LetsThrough drive (1 : UInt8).toNat (0 + 1) [3] :=
    .sector (hready 1 (by decide)) hasks (hready 3 (by decide)) .done
  obtain ⟨hzero, htransfers⟩ := ataWrite_of_letsThrough (hready 0 (by decide)) hends 0xF0 0
    (fun _ => 0)
  refine ⟨hzero, fun hreported => ?_⟩
  obtain ⟨statuses, hstatuses, hclean⟩ := hreported hzero
  have hsame := Transfers.ends_eq (fun words => sectorWords_ne_nil) htransfers hstatuses
  refine hclean 0x51 ?_ (by decide)
  rw [← hsame, List.map_singleton, hat]
  decide

end MasterOS.Ata
