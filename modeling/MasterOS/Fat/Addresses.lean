/-
# Cluster addresses

The layout of a volume is computed from a parameter block that nobody checks. As long as the
layout exists, and there is a reserved sector, a copy of the table and a sector in a cluster,
the sectors of the clusters are apart from each other and from all sectors with another use,
and the drive can tell them apart by the registers it is given.
-/

import MasterOS.Device.Accesses
import MasterOS.Device.Ata
import MasterOS.Fat.Volume

namespace MasterOS.Fat

open MasterOS.Device MasterOS.Device.Prog

/-- A cluster number as a directory record or an entry of the table can hold it, and the
number of a sector in a cluster. -/
structure ClusterSector (m : Mount) where
  cluster : ℕ
  off : ℕ
  two_le : 2 ≤ cluster
  cluster_lt : cluster < 2 ^ 16
  off_lt : off < m.spc

/-- The address of a sector of a cluster. -/
def ClusterSector.lba {m : Mount} (x : ClusterSector m) : ℕ := m.clusterLba x.cluster x.off

/-- No two sectors of clusters share an address, no other sector is there, and the registers
tell the drive the whole address. -/
structure ClustersApart (m : Mount) : Prop where
  injective : ∀ x y : ClusterSector m, x.lba = y.lba → x.cluster = y.cluster ∧ x.off = y.off
  above : ∀ x : ClusterSector m, m.dataStart ≤ x.lba
  boot : ∀ st, Within (· < m.dataStart) (fatInit st)
  loadFat : ∀ fatBuf, Within (· < m.dataStart) (loadFat m m.fatSecs 0 fatBuf)
  writeFat : ∀ fatBuf, Within (· < m.dataStart) (writeFat m fatBuf)
  readRoot : ∀ fatBuf s, Within (· < m.dataStart) (readDirSector m 0 fatBuf s)
  writeRoot : ∀ fatBuf s sector, s < m.rootSectors →
    Within (· < m.dataStart) (writeDirSector m 0 fatBuf s sector)
  scanRoot : ∀ st, st.mount = m → Within (· < m.dataStart) (fatGetUsedKb st)
  registers : ∀ (x : ClusterSector m) (ataDrive count : UInt8),
    ataDrive = Ata.ataMaster ∨ ataDrive = Ata.ataSlave →
      Ata.sectorOf (Ata.setUp ataDrive (UInt32.ofNat x.lba) count) = x.lba ∧
        Ata.sectorOf (Ata.setUpRead ataDrive (UInt32.ofNat x.lba) count) = x.lba
  lba_lt : ∀ x : ClusterSector m, x.lba < 2 ^ 28

/-! ## The sectors that are not of clusters -/

section Layout

variable {m : Mount} (hu : m.Usable)
include hu

/-- Writing a sector below the root directory. -/
theorem ataWrite_writesWithin {lba : ℕ} (h : lba < m.rootStart) (sector : Sector) :
    WritesWithin (· < m.rootStart) (ataWrite (lba % 2 ^ 32) sector) := by
  have hle := hu.rootStart_le
  refine ⟨?_, fun _ => trivial⟩
  rwa [Nat.mod_eq_of_lt (show lba < 2 ^ 32 by omega), Nat.mod_eq_of_lt (by omega)]

/-- The tables are written below the root directory. -/
theorem writeFat_writesWithin (fatBuf : FatBuf) :
    WritesWithin (· < m.rootStart) (writeFat m fatBuf) := by
  have hcopy (start left s : ℕ) (h : start + s + left ≤ m.rootStart) :
      WritesWithin (· < m.rootStart) (writeFatCopy fatBuf start left s) := by
    induction left generalizing s with
    | zero => trivial
    | succ left ih =>
        refine (ataWrite_writesWithin hu (by omega) _).bind fun r => ?_
        exact writesWithin_ite (fun _ => trivial) fun _ => ih (s + 1) (by omega)
  have hcopies (left f : ℕ) (hf : f + left ≤ m.bpb.fatCount.toNat) :
      WritesWithin (· < m.rootStart) (writeFatCopies m fatBuf left f) := by
    induction left generalizing f with
    | zero => trivial
    | succ left ih =>
        have hle : (f + 1) * m.bpb.sectorsPerFat.toNat ≤
            m.bpb.fatCount.toNat * m.bpb.sectorsPerFat.toNat :=
          Nat.mul_le_mul_right _ (by omega)
        have hsecs := m.fatSecs_le_sectorsPerFat
        have hstart := hu.rootStart_eq
        rw [Nat.add_mul, Nat.one_mul] at hle
        refine (hcopy _ _ 0 (by omega)).bind fun r => ?_
        exact writesWithin_ite (fun _ => trivial) fun _ => ih (f + 1) (by omega)
  exact hcopies _ 0 (by omega)

/-- With a copy of the table, the first one lies below the root directory. -/
theorem fatStart_add_fatSecs_le (hfat : 1 ≤ m.bpb.fatCount.toNat) :
    m.fatStart + m.fatSecs ≤ m.rootStart := by
  have hle := Nat.mul_le_mul_right m.bpb.sectorsPerFat.toNat hfat
  have hsecs := m.fatSecs_le_sectorsPerFat
  rw [hu.rootStart_eq]
  omega

theorem loadFat_within (hfat : 1 ≤ m.bpb.fatCount.toNat) (fatBuf : FatBuf) :
    Within (· < m.rootStart) (loadFat m m.fatSecs 0 fatBuf) := by
  have hstart := fatStart_add_fatSecs_le hu hfat
  have hload (left s : ℕ) (h : s + left ≤ m.fatSecs) (fatBuf : FatBuf) :
      Within (· < m.rootStart) (loadFat m left s fatBuf) := by
    induction left generalizing s fatBuf with
    | zero => trivial
    | succ left ih =>
        refine ⟨?_, fun answer => ?_⟩
        · show (m.fatStart + s) % 2 ^ 32 % 2 ^ 28 < m.rootStart
          omega
        · cases answer with
          | none => trivial
          | some sector => exact ih (s + 1) (by omega) _
  exact hload _ 0 (by omega) fatBuf

/-- The sectors of the root directory lie in front of the data. -/
theorem rootLba_lt {s : ℕ} (hs : s < m.rootSectors) :
    (m.rootStart + s) % 2 ^ 32 % 2 ^ 28 < m.dataStart := by
  have hdata := hu.dataStart_eq
  omega

theorem readDirSector_root_within (fatBuf : FatBuf) (s : ℕ) :
    Within (· < m.dataStart) (readDirSector m 0 fatBuf s) := by
  rw [readDirSector, if_pos rfl]
  refine within_ite (fun _ => trivial) fun hs => ?_
  refine ⟨rootLba_lt hu (by omega), fun answer => ?_⟩
  cases answer <;> trivial

theorem writeDirSector_root_within (fatBuf : FatBuf) {s : ℕ} (hs : s < m.rootSectors)
    (sector : Sector) : Within (· < m.dataStart) (writeDirSector m 0 fatBuf s sector) := by
  rw [writeDirSector, if_pos rfl]
  exact ⟨rootLba_lt hu hs, fun _ => trivial⟩

/-- So does the scan of the root directory that adds up its sizes. -/
theorem usedSectors_within (left s : ℕ) (h : s + left ≤ m.rootSectors) (used : UInt32) :
    Within (· < m.dataStart) (usedSectors m left s used) := by
  induction left generalizing s used with
  | zero => trivial
  | succ left ih =>
      refine ⟨rootLba_lt hu (by omega), fun answer => ?_⟩
      cases answer with
      | none => trivial
      | some sector =>
          dsimp only [Prog.bind]
          split
          · trivial
          · exact ih (s + 1) (by omega) _

theorem fatGetUsedKb_within {st : Driver} (hst : st.mount = m) :
    Within (· < m.dataStart) (fatGetUsedKb st) := by
  subst hst
  exact within_ite (fun _ => usedSectors_within hu _ 0 (by omega) 0) fun _ => trivial

end Layout

/-! ## Every layout -/

/-- **Cluster addresses never alias.** From every parameter block with a sector size, a
reserved sector, a copy of the table and a sector in a cluster `fat_init` computes a layout
that keeps the sectors of the clusters apart. -/
theorem clustersApart {bpb : Bpb} (hbytes : bpb.bytesPerSector.toNat ≠ 0)
    (hspc : 1 ≤ bpb.sectorsPerCluster.toNat) (hfat : 1 ≤ bpb.fatCount.toNat)
    (hreserved : 1 ≤ bpb.reservedSectors.toNat) :
    (∀ st d, Bpb.ofSector (d 0) = bpb →
      (fatInit st).Returns d (0, { st with mount := mountOf bpb }) []) ∧
      ClustersApart (mountOf bpb) := by
  have hu : (mountOf bpb).Usable := ⟨rfl, hspc⟩
  have hdata := hu.dataStart_eq
  have hroot := hu.rootStart_eq
  have hstart : 1 ≤ (mountOf bpb).fatStart := hu.fatStart_eq ▸ hreserved
  have hlt (x : ClusterSector (mountOf bpb)) : x.lba < 2 ^ 28 :=
    hu.clusterLba_lt x.two_le x.cluster_lt x.off_lt
  constructor
  · rintro st d rfl
    show (if (Bpb.ofSector (d 0)).bytesPerSector.toNat = 0 then .stop .divideByZero
      else .ret (0, _) : FatProg (ℤ × Driver)).exec d = _
    rw [if_neg hbytes]
    rfl
  · refine ⟨fun x y h => ?_, fun x => ?_, fun st => ?_, fun fatBuf => ?_, fun fatBuf => ?_,
      readDirSector_root_within hu, fun fatBuf s sector hs => ?_, fun st => fatGetUsedKb_within hu,
      fun x ataDrive count hd => ?_, hlt⟩
    · exact hu.clusterLba_inj x.two_le x.cluster_lt x.off_lt y.two_le y.cluster_lt y.off_lt h
    · exact hu.dataStart_le_clusterLba x.two_le x.cluster_lt x.off_lt
    · refine ⟨show 0 < (mountOf bpb).dataStart by omega, fun answer => ?_⟩
      cases answer with
      | none => trivial
      | some sector => exact within_ite (fun _ => trivial) fun _ => trivial
    · exact (loadFat_within hu hfat fatBuf).mono fun a ha => by omega
    · exact (writeFat_writesWithin hu fatBuf).within.mono fun a ha => by omega
    · exact writeDirSector_root_within hu fatBuf hs sector
    · have hnat : (UInt32.ofNat x.lba).toNat % 2 ^ 28 = x.lba := by
        rw [UInt32.toNat_ofNat_of_lt' ((hlt x).trans (by decide)), Nat.mod_eq_of_lt (hlt x)]
      have hsector := Ata.sectorOf_setUp hd (UInt32.ofNat x.lba) count
      rwa [hnat] at hsector

/-- The parameter block of a floppy disk. -/
def floppyBpb : Bpb := ⟨512, 1, 1, 2, 224, 2880, 9, 0⟩

theorem clustersApart_floppyBpb : (∀ st d, Bpb.ofSector (d 0) = floppyBpb →
    (fatInit st).Returns d (0, { st with mount := mountOf floppyBpb }) []) ∧
      ClustersApart (mountOf floppyBpb) :=
  clustersApart (by decide) (by decide) (by decide) (by decide)

end MasterOS.Fat
