/-
# The descriptors of the segments

`initGDT` packs six descriptors, the last of them for the task-state segment. The base and
the limit of a segment are spread over the fields of its descriptor, and of the limit only
twenty bits are kept. Loading the tables into the processor is not part of the model: both
routines that do it read the tables alone.
-/

import Mathlib.Data.UInt
import Mathlib.Data.Fin.VecNotation
import Mathlib.Tactic.FinCases

namespace MasterOS.Device

/-- `struct gdt_entry_struct`. -/
structure GdtEntry where
  limit : UInt16
  baseLow : UInt16
  baseMiddle : UInt8
  access : UInt8
  flags : UInt8
  baseHigh : UInt8

/-- `struct gdt_ptr_struct`. -/
structure GdtPtr where
  limit : UInt16
  base : UInt32

/-- `struct tss_entry_struct`. -/
structure TssEntry where
  prevTss : UInt32
  esp0 : UInt32
  ss0 : UInt32
  esp1 : UInt32
  ss1 : UInt32
  esp2 : UInt32
  ss2 : UInt32
  esp3 : UInt32
  ss3 : UInt32
  cr3 : UInt32
  eip : UInt32
  eflags : UInt32
  eax : UInt32
  ecx : UInt32
  edx : UInt32
  ebx : UInt32
  esp : UInt32
  esi : UInt32
  edi : UInt32
  es : UInt32
  cs : UInt32
  ss : UInt32
  fs : UInt32
  ds : UInt32
  gs : UInt32
  ldt : UInt32
  trap : UInt32
  iomapBase : UInt32

/-- `memSet` with zero over the whole structure. -/
def TssEntry.zero : TssEntry :=
  ⟨0, 0, 0, 0, 0, 0, 0, 0, 0, 0, 0, 0, 0, 0, 0, 0, 0, 0, 0, 0, 0, 0, 0, 0, 0, 0, 0, 0⟩

/-- `sizeof(tss_entry)`: 28 packed words. -/
def sizeofTssEntry : UInt32 := 28 * 4

/-- The globals of the descriptor tables. -/
structure Gdt where
  gdtEntries : Fin 6 → GdtEntry
  gdtPtr : GdtPtr
  tssEntry : TssEntry

/-- The fields that `setGDTGate` stores. -/
def gdtGate (base limit : UInt32) (access gran : UInt8) : GdtEntry where
  baseLow := (base &&& 0xFFFF).toUInt16
  baseMiddle := ((base >>> 16) &&& 0xFF).toUInt8
  baseHigh := ((base >>> 24) &&& 0xFF).toUInt8
  limit := (limit &&& 0xFFFF).toUInt16
  flags := ((limit >>> 16) &&& 0x0F).toUInt8 ||| (gran &&& 0xF0)
  access := access

/-- `setGDTGate`; none is a store behind the six entries. -/
def setGDTGate (num base limit : UInt32) (access gran : UInt8) (m : Gdt) : Option Gdt :=
  if h : num.toNat < 6 then
    some { m with gdtEntries :=
      Function.update m.gdtEntries ⟨num.toNat, h⟩ (gdtGate base limit access gran) }
  else none

/-- `writeTSS`, with the address of `tss_entry`. -/
def writeTSS (tssAddr num : UInt32) (ss0 : UInt16) (esp0 : UInt32) (m : Gdt) : Option Gdt := do
  let base := tssAddr
  let limit := base + sizeofTssEntry
  let m ← setGDTGate num base limit 0xE9 0x00 m
  let data : UInt32 := 0x10 ||| 0x3
  return { m with tssEntry :=
    { TssEntry.zero with
      ss0 := ss0.toUInt32, esp0 := esp0, cs := 0x08 ||| 0x3
      ss := data, ds := data, es := data, fs := data, gs := data } }

/-- `initGDT`, with the addresses of `gdt_entries` and `tss_entry`. -/
def initGDT (gdtAddr tssAddr : UInt32) (m : Gdt) : Option Gdt := do
  let m := { m with gdtPtr := ⟨8 * 6 - 1, gdtAddr⟩ }
  let m ← setGDTGate 0 0 0 0 0 m
  let m ← setGDTGate 1 0 0xFFFFFFF 0x9A 0xCF m
  let m ← setGDTGate 2 0 0xFFFFFFF 0x92 0xCF m
  let m ← setGDTGate 3 0 0xFFFFFFF 0xFA 0xCF m
  let m ← setGDTGate 4 0 0xFFFFFFF 0xF2 0xCF m
  writeTSS tssAddr 5 0x10 0x0 m

/-! ## What the processor reads -/

/-- A segment as the processor takes it from its descriptor. -/
@[ext]
structure Segment where
  base : ℕ
  limit : ℕ
  access : UInt8
  gran : UInt8

/-- The base from its three pieces and the limit from its two. -/
def GdtEntry.segment (e : GdtEntry) : Segment where
  base := e.baseLow.toNat + 2 ^ 16 * e.baseMiddle.toNat + 2 ^ 24 * e.baseHigh.toNat
  limit := e.limit.toNat + 2 ^ 16 * (e.flags &&& 0x0F).toNat
  access := e.access
  gran := e.flags &&& 0xF0

/-- The offset of the last byte: the granularity bit makes the limit count pages. -/
def Segment.lastOffset (s : Segment) : ℕ :=
  if s.gran &&& 0x80 = 0 then s.limit else 4096 * s.limit + 4095

/-- The segment is the `size` bytes from `addr` on, and no other byte. -/
def Segment.Covers (s : Segment) (addr size : ℕ) : Prop :=
  s.base = addr ∧ s.lastOffset + 1 = size

/-! ## Packing and unpacking -/

/-- A field of eight bits or fewer, shifted down and masked. -/
theorem toNat_field (x shift mask : UInt32) {w : ℕ} (hshift : shift.toNat < 32) (hw : w ≤ 8)
    (hmask : mask.toNat = 2 ^ w - 1) :
    ((x >>> shift) &&& mask).toUInt8.toNat = x.toNat / 2 ^ shift.toNat % 2 ^ w := by
  have hlt : x.toNat / 2 ^ shift.toNat % 2 ^ w < 2 ^ 8 :=
    (Nat.mod_lt _ (Nat.two_pow_pos w)).trans_le (Nat.pow_le_pow_right (by decide) hw)
  rw [UInt32.toNat_toUInt8, UInt32.toNat_and, UInt32.toNat_shiftRight, Nat.mod_eq_of_lt hshift,
    Nat.shiftRight_eq_div_pow, hmask, Nat.and_two_pow_sub_one_eq_mod]
  exact Nat.mod_eq_of_lt hlt

theorem toNat_lowHalf (x : UInt32) : (x &&& 0xFFFF).toUInt16.toNat = x.toNat % 2 ^ 16 := by
  rw [UInt32.toNat_toUInt16, UInt32.toNat_and,
    show (0xFFFF : UInt32).toNat = 2 ^ 16 - 1 from rfl, Nat.and_two_pow_sub_one_eq_mod]
  exact Nat.mod_mod _ _

/-- The lower half of `flags` is the limit's. -/
theorem flags_low (piece gran : UInt8) :
    (piece &&& 0x0F ||| gran &&& 0xF0) &&& 0x0F = piece &&& 0x0F := by
  apply UInt8.toNat_inj.mp
  simp [Nat.and_or_distrib_right, Nat.and_assoc]

/-- The upper half of `flags` is the granularity's. -/
theorem flags_high (piece gran : UInt8) :
    (piece &&& 0x0F ||| gran &&& 0xF0) &&& 0xF0 = gran &&& 0xF0 := by
  apply UInt8.toNat_inj.mp
  simp [Nat.and_or_distrib_right, Nat.and_assoc]

/-- **What a descriptor decodes to.** The base comes back as it was given, the limit without
its bits from the twentieth on, and of the granularity the upper half. -/
theorem segment_gdtGate (base limit : UInt32) (access gran : UInt8) :
    (gdtGate base limit access gran).segment =
      ⟨base.toNat, limit.toNat % 2 ^ 20, access, gran &&& 0xF0⟩ := by
  have hflags : (gdtGate base limit access gran).flags =
      (limit >>> 16).toUInt8 &&& 0x0F ||| gran &&& 0xF0 :=
    congrArg (· ||| gran &&& 0xF0) (UInt32.toUInt8_and _ _)
  apply Segment.ext
  · have hmiddle : (gdtGate base limit access gran).baseMiddle.toNat =
        base.toNat / 2 ^ 16 % 2 ^ 8 := toNat_field base 16 0xFF (by decide) (by decide) rfl
    have hhigh : (gdtGate base limit access gran).baseHigh.toNat =
        base.toNat / 2 ^ 24 % 2 ^ 8 := toNat_field base 24 0xFF (by decide) (by decide) rfl
    have hlow : (gdtGate base limit access gran).baseLow.toNat = base.toNat % 2 ^ 16 :=
      toNat_lowHalf base
    have hlt := base.toNat_lt
    simp only [GdtEntry.segment, hlow, hmiddle, hhigh]
    omega
  · have hlow : (gdtGate base limit access gran).limit.toNat = limit.toNat % 2 ^ 16 :=
      toNat_lowHalf limit
    have hpiece : ((limit >>> 16).toUInt8 &&& 0x0F).toNat = limit.toNat / 2 ^ 16 % 2 ^ 4 :=
      (congrArg UInt8.toNat (UInt32.toUInt8_and _ _)).symm.trans
        (toNat_field limit 16 0x0F (by decide) (by decide) rfl)
    simp only [GdtEntry.segment, hflags, flags_low, hlow, hpiece]
    omega
  · rfl
  · simp only [GdtEntry.segment, hflags, flags_high]

/-! ## The six descriptors -/

/-- What one call of `setGDTGate` is given. -/
structure Gate where
  base : UInt32
  limit : UInt32
  access : UInt8
  gran : UInt8

/-- The segment that a gate asks for, with twenty bits of the limit. -/
def Gate.segment (g : Gate) : Segment :=
  ⟨g.base.toNat, g.limit.toNat % 2 ^ 20, g.access, g.gran &&& 0xF0⟩

/-- The gates of the five descriptors in front of the task-state segment's. -/
def flatGates : Fin 5 → Gate :=
  ![⟨0, 0, 0, 0⟩, ⟨0, 0xFFFFFFF, 0x9A, 0xCF⟩, ⟨0, 0xFFFFFFF, 0x92, 0xCF⟩,
    ⟨0, 0xFFFFFFF, 0xFA, 0xCF⟩, ⟨0, 0xFFFFFFF, 0xF2, 0xCF⟩]

/-- After `initGDT` the last descriptor is that of `tss_entry`, and each of the others is
what its gate asks for. -/
def DescribesTss (gdtAddr tssAddr : UInt32) (m : Gdt) : Prop :=
  ∃ m', initGDT gdtAddr tssAddr m = some m' ∧
    (m'.gdtEntries 5).segment.Covers tssAddr.toNat sizeofTssEntry.toNat ∧
    ∀ k, (m'.gdtEntries (Fin.castSucc k)).segment = (flatGates k).segment

/-- The descriptors that `initGDT` leaves. -/
theorem initGDT_entries (gdtAddr tssAddr : UInt32) (m : Gdt) :
    ∃ m', initGDT gdtAddr tssAddr m = some m' ∧
      m'.gdtEntries 5 = gdtGate tssAddr (tssAddr + sizeofTssEntry) 0xE9 0x00 ∧
      ∀ k, m'.gdtEntries (Fin.castSucc k) = gdtGate (flatGates k).base (flatGates k).limit
        (flatGates k).access (flatGates k).gran := by
  refine ⟨_, rfl, rfl, fun k => ?_⟩
  fin_cases k <;> rfl

/-- With byte granularity the segment covers `size` bytes when that is one more than the
limit it keeps. -/
theorem covers_tss_iff (tssAddr limit : UInt32) (size : ℕ) :
    (gdtGate tssAddr limit 0xE9 0x00).segment.Covers tssAddr.toNat size ↔
      limit.toNat % 2 ^ 20 + 1 = size := by
  rw [segment_gdtGate, Segment.Covers, Segment.lastOffset,
    if_pos (show (0 &&& 0xF0 : UInt8) &&& 0x80 = 0 by decide)]
  exact and_iff_right rfl

/-- **When the task-state segment's descriptor describes it.** The limit that `writeTSS`
passes on is the end of the structure, not its size, and with it the descriptor covers the
structure exactly when the address ends in twenty one bits. -/
theorem describesTss_iff (gdtAddr tssAddr : UInt32) (m : Gdt) :
    DescribesTss gdtAddr tssAddr m ↔ tssAddr.toNat % 2 ^ 20 = 2 ^ 20 - 1 := by
  obtain ⟨m', hinit, htss, hflat⟩ := initGDT_entries gdtAddr tssAddr m
  have hlimit : (tssAddr + sizeofTssEntry).toNat = (tssAddr.toNat + 112) % 2 ^ 32 :=
    UInt32.toNat_add _ _
  have hcovers : (m'.gdtEntries 5).segment.Covers tssAddr.toNat sizeofTssEntry.toNat ↔
      tssAddr.toNat % 2 ^ 20 = 2 ^ 20 - 1 := by
    rw [htss, covers_tss_iff, hlimit, show sizeofTssEntry.toNat = 112 from rfl]
    omega
  constructor
  · rintro ⟨_, hinit', h, -⟩
    obtain rfl := Option.some.inj (hinit.symm.trans hinit')
    exact hcovers.mp h
  · intro h
    refine ⟨m', hinit, hcovers.mpr h, fun k => ?_⟩
    rw [hflat k, segment_gdtGate]
    rfl

/-- The globals as they are before `initGDT`. -/
def Gdt.zero : Gdt := ⟨fun _ => ⟨0, 0, 0, 0, 0, 0⟩, ⟨0, 0⟩, .zero⟩

/-- At an address in the kernel's data, a whole number of pages, the descriptor ends far
behind the structure. -/
theorem not_describesTss :
    ¬ ∀ tssAddr : UInt32, tssAddr.toNat + sizeofTssEntry.toNat ≤ 2 ^ 32 →
      DescribesTss 0x00108000 tssAddr .zero := by
  intro h
  obtain ⟨m', hinit, htss, -⟩ := initGDT_entries 0x00108000 0x00109000 .zero
  obtain ⟨_, hinit', hcovers, -⟩ := h 0x00109000 (by decide)
  obtain rfl := Option.some.inj (hinit.symm.trans hinit')
  rw [htss, covers_tss_iff] at hcovers
  exact absurd hcovers (by decide)

end MasterOS.Device
