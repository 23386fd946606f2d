/-
# The on-disk data of the FAT driver

A sector is 512 bytes. Two packed records are laid over one: the BIOS parameter
block at the start of sector 0, and the sixteen directory records of a directory
sector. Both are modelled as structures with the widths of the C fields, and the
byte layout is the pair of conversions between a record and its bytes.

`Mount` holds what `fat_init` leaves in the driver's statics: the parameter
block and the four addresses computed from it.
-/

import Mathlib.Data.Nat.Basic
import Mathlib.Logic.Function.Basic
import Mathlib.Tactic.Ring
import Mathlib.Tactic.IntervalCases

namespace MasterOS.Fat

/-- The content of one disk sector. -/
abbrev Sector : Type := Fin 512 → UInt8

/-- The disk, by logical block address. -/
abbrev Disk : Type := ℕ → Sector

namespace Sector

/-- The byte at an offset. Offsets past the end do not occur in the driver. -/
def byte (s : Sector) (i : ℕ) : UInt8 :=
  if h : i < 512 then s ⟨i, h⟩ else 0

/-- A sector given byte by byte. -/
def ofBytes (f : ℕ → UInt8) : Sector := fun i => f i

@[simp]
theorem byte_ofBytes (f : ℕ → UInt8) {i : ℕ} (h : i < 512) : (ofBytes f).byte i = f i := by
  simp [byte, ofBytes, h]

/-- Sectors with the same bytes are equal. -/
theorem ext_byte {s t : Sector} (h : ∀ i < 512, s.byte i = t.byte i) : s = t := by
  funext i
  have hi := h i i.isLt
  simpa [byte] using hi

end Sector

/-! ## Little-endian fields -/

/-- A 16-bit field from its two bytes, least significant first. -/
def le16 (b0 b1 : UInt8) : UInt16 := UInt16.ofNat (b0.toNat + 256 * b1.toNat)

/-- A 32-bit field from its four bytes, least significant first. -/
def le32 (b0 b1 b2 b3 : UInt8) : UInt32 :=
  UInt32.ofNat (b0.toNat + 256 * b1.toNat + 65536 * b2.toNat + 16777216 * b3.toNat)

/-- Byte `k` of a little-endian number. -/
def leByte (v k : ℕ) : UInt8 := UInt8.ofNat (v / 256 ^ k)

theorem le16_leByte (v : UInt16) : le16 (leByte v.toNat 0) (leByte v.toNat 1) = v := by
  have hv := v.toNat_lt
  apply UInt16.toNat_inj.mp
  simp only [le16, leByte, UInt16.toNat_ofNat', UInt8.toNat_ofNat']
  omega

theorem le32_leByte (v : UInt32) :
    le32 (leByte v.toNat 0) (leByte v.toNat 1) (leByte v.toNat 2) (leByte v.toNat 3) = v := by
  have hv := v.toNat_lt
  apply UInt32.toNat_inj.mp
  simp only [le32, leByte, UInt32.toNat_ofNat', UInt8.toNat_ofNat']
  omega

theorem leByte_le16 (b0 b1 : UInt8) :
    leByte (le16 b0 b1).toNat 0 = b0 ∧ leByte (le16 b0 b1).toNat 1 = b1 := by
  have h0 := b0.toNat_lt
  have h1 := b1.toNat_lt
  simp only [← UInt8.toNat_inj, le16, leByte, UInt16.toNat_ofNat', UInt8.toNat_ofNat']
  omega

theorem leByte_le32 (b0 b1 b2 b3 : UInt8) :
    leByte (le32 b0 b1 b2 b3).toNat 0 = b0 ∧ leByte (le32 b0 b1 b2 b3).toNat 1 = b1 ∧
      leByte (le32 b0 b1 b2 b3).toNat 2 = b2 ∧ leByte (le32 b0 b1 b2 b3).toNat 3 = b3 := by
  have h0 := b0.toNat_lt
  have h1 := b1.toNat_lt
  have h2 := b2.toNat_lt
  have h3 := b3.toNat_lt
  simp only [← UInt8.toNat_inj, le32, leByte, UInt32.toNat_ofNat', UInt8.toNat_ofNat']
  omega

/-! ## Directory records -/

/-- `RawDirEntry`: one 32-byte directory record. -/
structure RawDirEntry where
  name : Fin 8 → UInt8
  ext : Fin 3 → UInt8
  attributes : UInt8
  reserved : Fin 10 → UInt8
  time : UInt16
  date : UInt16
  firstCluster : UInt16
  fileSize : UInt32

namespace RawDirEntry

/-- Records with equal fields are equal. -/
theorem eq_of_fields {e e' : RawDirEntry} (name : ∀ k, e.name k = e'.name k)
    (ext : ∀ k, e.ext k = e'.ext k) (attributes : e.attributes = e'.attributes)
    (reserved : ∀ k, e.reserved k = e'.reserved k) (time : e.time = e'.time)
    (date : e.date = e'.date) (firstCluster : e.firstCluster = e'.firstCluster)
    (fileSize : e.fileSize = e'.fileSize) : e = e' := by
  cases e
  cases e'
  simp only [mk.injEq]
  exact ⟨funext name, funext ext, attributes, funext reserved, time, date, firstCluster,
    fileSize⟩

/-- Byte `k` of a record. -/
def byteAt (e : RawDirEntry) (k : ℕ) : UInt8 :=
  if h : k < 8 then e.name ⟨k, h⟩
  else if h : k < 11 then e.ext ⟨k - 8, by omega⟩
  else if k = 11 then e.attributes
  else if h : k < 22 then e.reserved ⟨k - 12, by omega⟩
  else if k < 24 then leByte e.time.toNat (k - 22)
  else if k < 26 then leByte e.date.toNat (k - 24)
  else if k < 28 then leByte e.firstCluster.toNat (k - 26)
  else leByte e.fileSize.toNat (k - 28)

/-- `first == 0x00`: the slot was never used and ends the directory. -/
def isEnd (e : RawDirEntry) : Bool := e.name 0 == 0x00

/-- `first == 0xE5`: the slot is free again. -/
def isDeleted (e : RawDirEntry) : Bool := e.name 0 == 0xE5

/-- `attributes & 0x08`: a volume label. -/
def isLabel (e : RawDirEntry) : Bool := e.attributes &&& 0x08 != 0

/-- `attributes & 0x10`: a directory. -/
def isDir (e : RawDirEntry) : Bool := e.attributes &&& 0x10 != 0

/-- `name[0] == '.'`. -/
def startsWithDot (e : RawDirEntry) : Bool := e.name 0 == 0x2E

/-- `dir[i].name[0] = 0xE5`. -/
def markDeleted (e : RawDirEntry) : RawDirEntry :=
  { e with name := Function.update e.name 0 0xE5 }

@[simp]
theorem isDeleted_markDeleted (e : RawDirEntry) : e.markDeleted.isDeleted = true := by
  simp [isDeleted, markDeleted]

@[simp]
theorem isEnd_markDeleted (e : RawDirEntry) : e.markDeleted.isEnd = false := by
  simp [isEnd, markDeleted]

@[simp]
theorem isDir_markDeleted (e : RawDirEntry) : e.markDeleted.isDir = e.isDir := rfl

@[simp]
theorem isLabel_markDeleted (e : RawDirEntry) : e.markDeleted.isLabel = e.isLabel := rfl

end RawDirEntry

namespace Sector

/-- `dir[i]`: the record in slot `i` of a directory sector. -/
def entry (s : Sector) (i : ℕ) : RawDirEntry where
  name k := s.byte (32 * i + k)
  ext k := s.byte (32 * i + 8 + k)
  attributes := s.byte (32 * i + 11)
  reserved k := s.byte (32 * i + 12 + k)
  time := le16 (s.byte (32 * i + 22)) (s.byte (32 * i + 23))
  date := le16 (s.byte (32 * i + 24)) (s.byte (32 * i + 25))
  firstCluster := le16 (s.byte (32 * i + 26)) (s.byte (32 * i + 27))
  fileSize := le32 (s.byte (32 * i + 28)) (s.byte (32 * i + 29)) (s.byte (32 * i + 30))
    (s.byte (32 * i + 31))

/-- The bytes of the record in slot `i` are the bytes of the slot. -/
theorem byteAt_entry (s : Sector) (i : ℕ) {k : ℕ} (hk : k < 32) :
    (s.entry i).byteAt k = s.byte (32 * i + k) := by
  by_cases hfields : k < 22
  · unfold RawDirEntry.byteAt entry
    split_ifs with h8 h11 heq
    · rfl
    · exact congrArg s.byte (by simp only; omega)
    · rw [heq]
    · exact congrArg s.byte (by simp only; omega)
  · obtain ⟨ht0, ht1⟩ := leByte_le16 (s.byte (32 * i + 22)) (s.byte (32 * i + 23))
    obtain ⟨hd0, hd1⟩ := leByte_le16 (s.byte (32 * i + 24)) (s.byte (32 * i + 25))
    obtain ⟨hc0, hc1⟩ := leByte_le16 (s.byte (32 * i + 26)) (s.byte (32 * i + 27))
    obtain ⟨hs0, hs1, hs2, hs3⟩ := leByte_le32 (s.byte (32 * i + 28)) (s.byte (32 * i + 29))
      (s.byte (32 * i + 30)) (s.byte (32 * i + 31))
    interval_cases k <;> simp [RawDirEntry.byteAt, entry, *]

/-- Store a record in slot `i`, leaving the other bytes of the sector alone. -/
def setEntry (s : Sector) (i : ℕ) (e : RawDirEntry) : Sector := fun j =>
  if 32 * i ≤ j.val ∧ j.val < 32 * i + 32 then e.byteAt (j.val - 32 * i) else s j

theorem byte_setEntry_of_inside (s : Sector) {i k : ℕ} (e : RawDirEntry) (hi : i < 16)
    (hk : k < 32) : (s.setEntry i e).byte (32 * i + k) = e.byteAt k := by
  have hlt : 32 * i + k < 512 := by omega
  have hin : 32 * i ≤ 32 * i + k ∧ 32 * i + k < 32 * i + 32 := by omega
  rw [Sector.byte, dif_pos hlt, setEntry, if_pos hin, Nat.add_sub_cancel_left]

theorem byte_setEntry_of_outside (s : Sector) {i j : ℕ} (e : RawDirEntry)
    (hj : j < 32 * i ∨ 32 * i + 32 ≤ j) : (s.setEntry i e).byte j = s.byte j := by
  have hout : ¬(32 * i ≤ j ∧ j < 32 * i + 32) := by omega
  by_cases hlt : j < 512
  · rw [Sector.byte, dif_pos hlt, setEntry, if_neg hout, Sector.byte, dif_pos hlt]
  · rw [Sector.byte, dif_neg hlt, Sector.byte, dif_neg hlt]

/-- The record read back from the slot it was stored in. -/
theorem entry_setEntry_self (s : Sector) {i : ℕ} (e : RawDirEntry) (hi : i < 16) :
    (s.setEntry i e).entry i = e := by
  have hbyte (k : ℕ) (hk : k < 32) : (s.setEntry i e).byte (32 * i + k) = e.byteAt k :=
    byte_setEntry_of_inside s e hi hk
  apply RawDirEntry.eq_of_fields
  · intro k
    have hk := k.isLt
    rw [show ((s.setEntry i e).entry i).name k = (s.setEntry i e).byte (32 * i + k) from rfl,
      hbyte k (by omega), RawDirEntry.byteAt, dif_pos hk]
  · intro k
    have hk := k.isLt
    rw [show ((s.setEntry i e).entry i).ext k = (s.setEntry i e).byte (32 * i + 8 + k) from rfl,
      Nat.add_assoc, hbyte (8 + k) (by omega), RawDirEntry.byteAt, dif_neg (by omega), dif_pos (by omega)]
    congr 1
    exact Fin.ext (by simp)
  · exact hbyte 11 (by omega)
  · intro k
    rw [show ((s.setEntry i e).entry i).reserved k = (s.setEntry i e).byte (32 * i + 12 + k)
      from rfl, Nat.add_assoc, hbyte (12 + k) (by omega), RawDirEntry.byteAt, dif_neg (by omega),
      dif_neg (by omega), if_neg (by omega), dif_pos (by omega)]
    congr 1
    exact Fin.ext (by simp)
  · simpa [entry, hbyte 22, hbyte 23, RawDirEntry.byteAt] using le16_leByte e.time
  · simpa [entry, hbyte 24, hbyte 25, RawDirEntry.byteAt] using le16_leByte e.date
  · simpa [entry, hbyte 26, hbyte 27, RawDirEntry.byteAt] using le16_leByte e.firstCluster
  · simpa [entry, hbyte 28, hbyte 29, hbyte 30, hbyte 31, RawDirEntry.byteAt] using
      le32_leByte e.fileSize

/-- Storing a record leaves the records of the other slots alone. -/
theorem entry_setEntry_of_ne (s : Sector) {i j : ℕ} (e : RawDirEntry) (hij : j ≠ i) :
    (s.setEntry i e).entry j = s.entry j := by
  have hbyte (k : ℕ) (hk : k < 32) : (s.setEntry i e).byte (32 * j + k) = s.byte (32 * j + k) :=
    byte_setEntry_of_outside s e (by omega)
  apply RawDirEntry.eq_of_fields
  · intro k
    exact hbyte k (by have := k.isLt; omega)
  · intro k
    have hk := hbyte (8 + k) (by have := k.isLt; omega)
    rwa [← Nat.add_assoc] at hk
  · exact hbyte 11 (by omega)
  · intro k
    have hk := hbyte (12 + k) (by have := k.isLt; omega)
    rwa [← Nat.add_assoc] at hk
  · simp [entry, hbyte 22, hbyte 23]
  · simp [entry, hbyte 24, hbyte 25]
  · simp [entry, hbyte 26, hbyte 27]
  · simp [entry, hbyte 28, hbyte 29, hbyte 30, hbyte 31]

end Sector


/-! ## The parameter block and the mounted volume -/

/-- `BPB`: the fields of the BIOS parameter block that the driver reads. -/
structure Bpb where
  bytesPerSector : UInt16
  sectorsPerCluster : UInt8
  reservedSectors : UInt16
  fatCount : UInt8
  rootEntryCount : UInt16
  totalSectors16 : UInt16
  sectorsPerFat : UInt16
  totalSectors32 : UInt32

/-- The parameter block at the start of sector 0. -/
def Bpb.ofSector (s : Sector) : Bpb where
  bytesPerSector := le16 (s.byte 11) (s.byte 12)
  sectorsPerCluster := s.byte 13
  reservedSectors := le16 (s.byte 14) (s.byte 15)
  fatCount := s.byte 16
  rootEntryCount := le16 (s.byte 17) (s.byte 18)
  totalSectors16 := le16 (s.byte 19) (s.byte 20)
  sectorsPerFat := le16 (s.byte 22) (s.byte 23)
  totalSectors32 := le32 (s.byte 32) (s.byte 33) (s.byte 34) (s.byte 35)

/-- The statics that `fat_init` sets. -/
structure Mount where
  bpb : Bpb
  initialized : Bool
  fatStart : ℕ
  rootStart : ℕ
  rootSectors : ℕ
  dataStart : ℕ

/-- The layout `fat_init` computes from a parameter block. The operands are at
most 16 bits wide, so none of the sums and products exceeds 32 bits. -/
def mountOf (bpb : Bpb) : Mount :=
  let fatStart := bpb.reservedSectors.toNat
  let rootStart := fatStart + bpb.fatCount.toNat * bpb.sectorsPerFat.toNat
  let rootSectors := (bpb.rootEntryCount.toNat * 32 + (bpb.bytesPerSector.toNat - 1)) /
    bpb.bytesPerSector.toNat
  { bpb, initialized := true, fatStart, rootStart, rootSectors,
    dataStart := rootStart + rootSectors }

namespace Mount

/-- `bpb.sectors_per_cluster`. -/
def spc (m : Mount) : ℕ := m.bpb.sectorsPerCluster.toNat

/-- `fat_secs`: the sectors of the FAT that fit the driver's buffer. -/
def fatSecs (m : Mount) : ℕ := min m.bpb.sectorsPerFat.toNat 18

/-- `data_start + (uint32_t)(cluster - 2) * spc + off`, in 32-bit arithmetic. -/
def clusterLba (m : Mount) (cluster off : ℕ) : ℕ :=
  (m.dataStart + (cluster + 2 ^ 32 - 2) * m.spc + off) % 2 ^ 32

end Mount

end MasterOS.Fat
