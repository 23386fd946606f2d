/-
# What the driver's loops do

One lemma for each loop of the driver, for the run in which the disk answers: the
value it returns and the writes it issues. Loops over a directory are described
through the directory's sectors, loops over a chain through the chain.
-/

import MasterOS.Fat.Volume

namespace MasterOS.Fat

open MasterOS.Device MasterOS.Device.Prog MasterOS.Math

/-! ## Single accesses -/

theorem ataRead_returns {d : Disk} {lba : ℕ} (h : lba < 2 ^ 28) :
    (ataRead lba).Returns d (some (d lba)) [] := by
  rw [Returns, ataRead, exec_read, Nat.mod_eq_of_lt h]
  rfl

/-- A write as the drive gets it, with the low 28 bits of its address. -/
def onDrive (w : ℕ × Sector) : ℕ × Sector := (w.1 % 2 ^ 28, w.2)

theorem onDrive_of_lt {w : ℕ × Sector} (h : w.1 < 2 ^ 28) : onDrive w = w := by
  rw [onDrive, Nat.mod_eq_of_lt h]

theorem ataWrite_returns_onDrive (d : Disk) (lba : ℕ) (sector : Sector) :
    (ataWrite lba sector).Returns d 0 [onDrive (lba, sector)] := by
  rw [Returns, ataWrite, exec_write]
  rfl

theorem ataWrite_returns {d : Disk} {lba : ℕ} (sector : Sector) (h : lba < 2 ^ 28) :
    (ataWrite lba sector).Returns d 0 [(lba, sector)] := by
  have hwrite := ataWrite_returns_onDrive d lba sector
  rwa [onDrive_of_lt h] at hwrite

/-- An address below the drive's limit is not changed by 32-bit wrapping. -/
theorem mod32_of_lt {n : ℕ} (h : n < 2 ^ 28) : n % 2 ^ 32 = n :=
  Nat.mod_eq_of_lt (lt_trans h (by decide))

theorem ataRead_mod_returns {d : Disk} {lba : ℕ} (h : lba < 2 ^ 28) :
    (ataRead (lba % 2 ^ 32)).Returns d (some (d lba)) [] := by
  rw [mod32_of_lt h]
  exact ataRead_returns h

theorem ataWrite_mod_returns {d : Disk} {lba : ℕ} (sector : Sector) (h : lba < 2 ^ 28) :
    (ataWrite (lba % 2 ^ 32) sector).Returns d 0 [(lba, sector)] := by
  rw [mod32_of_lt h]
  exact ataWrite_returns sector h

theorem loadEntry_of_lt {fatBuf : FatBuf} {c : ℕ} (h : c < 6144) :
    loadEntry fatBuf c = .ret (fatNextCluster fatBuf c) := by
  rw [loadEntry, if_pos]
  unfold InBuf
  omega

/-! ## Loading and storing the table -/

/-- The driver's buffer after `load_fat`: the table on the disk, and behind it what
the buffer held before. -/
def loaded (m : Mount) (d : Disk) (fatBuf : FatBuf) : FatBuf := fun o =>
  if o < m.fatSecs * 512 then fatImage m d o else fatBuf o

/-- The entries the driver loads are those of the disk. -/
theorem fatNextCluster_loaded {m : Mount} {d : Disk} {fatBuf : FatBuf} {c : ℕ}
    (h : Loaded m c) : fatNextCluster (loaded m d fatBuf) c = fatAt m d c := by
  unfold Loaded at h
  refine fatNextCluster_congr ?_ ?_
  · rw [loaded, if_pos (by omega)]
  · rw [loaded, if_pos (by omega)]

/-- A sector of a table that was loaded is the sector on the disk. -/
theorem fatSector_of_loaded {m : Mount} {d : Disk} {table fatBuf : FatBuf}
    (hsame : ∀ o < m.fatSecs * 512, table o = loaded m d fatBuf o) {s : ℕ} (hs : s < m.fatSecs) :
    fatSector table s = d (m.fatStart + s) := by
  refine Sector.ext_byte fun i hi => ?_
  rw [fatSector, Sector.byte_ofBytes _ hi, hsame _ (by omega), loaded, if_pos (by omega),
    fatImage, show (512 * s + i) / 512 = s by omega, show (512 * s + i) % 512 = i by omega]

theorem loadFat_returns_aux {m : Mount} {d : Disk} (left s : ℕ) (fatBuf : FatBuf)
    (h : m.fatStart + s + left ≤ 2 ^ 28) :
    (loadFat m left s fatBuf).Returns d
      (0, fun o => if 512 * s ≤ o ∧ o < 512 * (s + left) then fatImage m d o else fatBuf o)
      [] := by
  induction left generalizing s fatBuf with
  | zero =>
      have hbuf : (fun o => if 512 * s ≤ o ∧ o < 512 * (s + 0) then fatImage m d o
          else fatBuf o) = fatBuf := by
        funext o
        rw [if_neg (by omega)]
      rw [hbuf]
      rfl
  | succ left ih =>
      have hlba : m.fatStart + s < 2 ^ 28 := by omega
      have hread := ataRead_mod_returns (d := d) hlba
      have hrest := ih (s + 1) (loadSector fatBuf s (d (m.fatStart + s))) (by omega)
      have hbuf : (fun o => if 512 * (s + 1) ≤ o ∧ o < 512 * (s + 1 + left) then
          fatImage m d o else loadSector fatBuf s (d (m.fatStart + s)) o) =
          fun o => if 512 * s ≤ o ∧ o < 512 * (s + (left + 1)) then fatImage m d o
            else fatBuf o := by
        funext o
        unfold loadSector fatImage
        split_ifs with h1 h2 h3 h4 h5 <;> first | rfl | omega | skip
        rw [show o / 512 = s by omega, show o % 512 = o - 512 * s by omega]
      rw [hbuf] at hrest
      exact hread.bind hrest

/-- `load_fat` on a disk that answers. -/
theorem loadFat_returns {m : Mount} (hu : m.Usable) (d : Disk) (fatBuf : FatBuf) :
    (loadFat m m.fatSecs 0 fatBuf).Returns d (0, loaded m d fatBuf) [] := by
  have hle := m.fatSecs_le
  have hstart := hu.rootStart_le
  have hroot := hu.rootStart_eq
  have h := loadFat_returns_aux (m := m) (d := d) m.fatSecs 0 fatBuf (by omega)
  have hbuf : (fun o => if 512 * 0 ≤ o ∧ o < 512 * (0 + m.fatSecs) then fatImage m d o
      else fatBuf o) = loaded m d fatBuf := by
    funext o
    unfold loaded
    split_ifs <;> first | rfl | omega
  rwa [hbuf] at h

/-- The prologue of an operation on a disk that answers. -/
theorem withFat_exec_usable {α : Type} {st : Driver} (hu : st.mount.Usable) (owner : Owner)
    (failed : α) (body : FatBuf → FatProg (α × Driver)) (d : Disk) :
    (withFat st owner failed body).exec d =
      (body (loaded st.mount d (st.fatBuf owner))).exec d := by
  rw [withFat, if_pos hu.initialized, (loadFat_returns hu d (st.fatBuf owner)).exec_bind]
  simp

theorem withFat_exec {α : Type} {st : Driver} (hv : st.mount.Valid) (owner : Owner) (failed : α)
    (body : FatBuf → FatProg (α × Driver)) (d : Disk) :
    (withFat st owner failed body).exec d =
      (body (loaded st.mount d (st.fatBuf owner))).exec d :=
  withFat_exec_usable hv.usable owner failed body d

/-- The writes of `write_fat`: every copy, sector by sector. -/
def fatWrites (m : Mount) (fatBuf : FatBuf) : List (ℕ × Sector) :=
  (List.range' 0 m.bpb.fatCount.toNat).flatMap fun f =>
    (List.range' 0 m.fatSecs).map fun s =>
      (m.fatStart + f * m.bpb.sectorsPerFat.toNat + s, fatSector fatBuf s)

theorem writeFatCopy_returns (fatBuf : FatBuf) (start : ℕ) (left s : ℕ) (d : Disk)
    (h : start + s + left ≤ 2 ^ 28) :
    (writeFatCopy fatBuf start left s).Returns d 0
      ((List.range' s left).map fun s => (start + s, fatSector fatBuf s)) := by
  induction left generalizing s d with
  | zero => rfl
  | succ left ih =>
      have hlba : start + s < 2 ^ 28 := by omega
      have hwrite := ataWrite_mod_returns (d := d) (fatSector fatBuf s) hlba
      exact hwrite.bind (f := fun r => if r ≠ 0 then .ret (-1)
        else writeFatCopy fatBuf start left (s + 1)) (ih (s + 1) _ (by omega))

theorem writeFatCopies_returns {m : Mount} (hv : m.Valid) (fatBuf : FatBuf) (left f : ℕ)
    (d : Disk) (h : f + left = m.bpb.fatCount.toNat) :
    (writeFatCopies m fatBuf left f).Returns d 0
      ((List.range' f left).flatMap fun f => (List.range' 0 m.fatSecs).map fun s =>
        (m.fatStart + f * m.bpb.sectorsPerFat.toNat + s, fatSector fatBuf s)) := by
  induction left generalizing f d with
  | zero => rfl
  | succ left ih =>
      have hle := m.fatSecs_le
      have hroot := hv.rootStart_le
      have hmul : f * m.bpb.sectorsPerFat.toNat ≤
          m.bpb.fatCount.toNat * m.bpb.sectorsPerFat.toNat := Nat.mul_le_mul_right _ (by omega)
      have heq := hv.rootStart_eq
      have hcopy := writeFatCopy_returns fatBuf
        (m.fatStart + f * m.bpb.sectorsPerFat.toNat) m.fatSecs 0 d (by omega)
      rw [List.range'_succ, List.flatMap_cons]
      exact hcopy.bind (f := fun r => if r ≠ 0 then .ret (-1)
        else writeFatCopies m fatBuf left (f + 1)) (ih (f + 1) _ (by omega))

/-- `write_fat` on a disk that answers. -/
theorem writeFat_returns {m : Mount} (hv : m.Valid) (fatBuf : FatBuf) (d : Disk) :
    (writeFat m fatBuf).Returns d 0 (fatWrites m fatBuf) :=
  writeFatCopies_returns hv fatBuf _ 0 d (Nat.zero_add _)

theorem mem_fatWrites {m : Mount} {fatBuf : FatBuf} {w : ℕ × Sector} :
    w ∈ fatWrites m fatBuf ↔ ∃ f s, f < m.bpb.fatCount.toNat ∧ s < m.fatSecs ∧
      w = (m.fatStart + f * m.bpb.sectorsPerFat.toNat + s, fatSector fatBuf s) := by
  simp only [fatWrites, List.mem_flatMap, List.mem_map, List.mem_range'_1]
  constructor
  · rintro ⟨f, hf, s, hs, rfl⟩
    exact ⟨f, s, by omega, by omega, rfl⟩
  · rintro ⟨f, s, hf, hs, rfl⟩
    exact ⟨f, by omega, s, by omega, rfl⟩

/-- `write_fat` stays between the start of the tables and the root directory. -/
theorem fatWrites_bounds {m : Mount} (hv : m.Valid) {fatBuf : FatBuf} {w : ℕ × Sector}
    (h : w ∈ fatWrites m fatBuf) : m.fatStart ≤ w.1 ∧ w.1 < m.rootStart := by
  obtain ⟨f, s, hf, hs, rfl⟩ := mem_fatWrites.mp h
  have hspf := m.fatSecs_le_sectorsPerFat
  exact ⟨by dsimp only; omega, hv.fatCopy_lt hf (by omega)⟩

/-- Two copies' sectors have the same address only if they are the same sector. -/
theorem fatCopy_inj {m : Mount} {f f' s s' : ℕ} (hs : s < m.fatSecs) (hs' : s' < m.fatSecs)
    (h : m.fatStart + f * m.bpb.sectorsPerFat.toNat + s =
      m.fatStart + f' * m.bpb.sectorsPerFat.toNat + s') : f = f' ∧ s = s' := by
  have hspf := m.fatSecs_le_sectorsPerFat
  have hpos : 0 < m.bpb.sectorsPerFat.toNat := by omega
  have hsum : (s + f * m.bpb.sectorsPerFat.toNat) / m.bpb.sectorsPerFat.toNat =
      (s' + f' * m.bpb.sectorsPerFat.toNat) / m.bpb.sectorsPerFat.toNat := by
    congr 1
    omega
  rw [Nat.add_mul_div_right _ _ hpos, Nat.add_mul_div_right _ _ hpos,
    Nat.div_eq_of_lt (by omega), Nat.div_eq_of_lt (by omega)] at hsum
  have hf : f = f' := by omega
  subst hf
  exact ⟨rfl, by omega⟩

/-- After `write_fat` every copy holds the buffer. -/
theorem applyWrites_fatWrites {m : Mount} {fatBuf : FatBuf} {d : Disk} {f s : ℕ}
    (hf : f < m.bpb.fatCount.toNat) (hs : s < m.fatSecs) :
    applyWrites (fatWrites m fatBuf) d (m.fatStart + f * m.bpb.sectorsPerFat.toNat + s) =
      fatSector fatBuf s := by
  refine applyWrites_of_mem (mem_fatWrites.mpr ⟨f, s, hf, hs, rfl⟩) fun w hw haddr => ?_
  obtain ⟨f', s', hf', hs', rfl⟩ := mem_fatWrites.mp hw
  obtain ⟨-, rfl⟩ := fatCopy_inj hs' hs haddr
  rfl

/-- `write_fat` changes nothing outside the tables. -/
theorem applyWrites_fatWrites_of_outside {m : Mount} (hv : m.Valid) {fatBuf : FatBuf} {d : Disk}
    {lba : ℕ} (h : lba < m.fatStart ∨ m.rootStart ≤ lba) :
    applyWrites (fatWrites m fatBuf) d lba = d lba := by
  refine applyWrites_of_forall_ne fun w hw heq => ?_
  have := fatWrites_bounds hv hw
  omega

theorem fatImage_applyWrites_fatWrites {m : Mount} (hv : m.Valid) {fatBuf : FatBuf} {d : Disk}
    {o : ℕ} (h : o < m.fatSecs * 512) :
    fatImage m (applyWrites (fatWrites m fatBuf) d) o = fatBuf o := by
  have hs : o / 512 < m.fatSecs := by omega
  have hwrite : applyWrites (fatWrites m fatBuf) d
      (m.fatStart + 0 * m.bpb.sectorsPerFat.toNat + o / 512) = fatSector fatBuf (o / 512) :=
    applyWrites_fatWrites hv.fatCount_pos hs
  rw [Nat.zero_mul, Nat.add_zero] at hwrite
  rw [fatImage, hwrite, fatSector, Sector.byte_ofBytes _ (by omega)]
  congr 1
  omega

/-- The table on the disk after `write_fat` is the buffer's. -/
theorem fatAt_applyWrites_fatWrites {m : Mount} (hv : m.Valid) {fatBuf : FatBuf} {d : Disk}
    {c : ℕ} (h : Loaded m c) :
    fatAt m (applyWrites (fatWrites m fatBuf) d) c = fatNextCluster fatBuf c := by
  unfold Loaded at h
  exact fatNextCluster_congr (fatImage_applyWrites_fatWrites hv (by omega))
    (fatImage_applyWrites_fatWrites hv (by omega))

/-- The table depends on the sectors before the root directory only. -/
theorem fatAt_congr {m : Mount} (hv : m.Valid) {d d' : Disk}
    (h : ∀ lba, m.fatStart ≤ lba → lba < m.rootStart → d' lba = d lba) {c : ℕ}
    (hc : Loaded m c) : fatAt m d' c = fatAt m d c := by
  have hspf := m.fatSecs_le_sectorsPerFat
  have hbyte (o : ℕ) (ho : o < m.fatSecs * 512) : fatImage m d' o = fatImage m d o := by
    have hlt := hv.fatCopy_lt (f := 0) (s := o / 512) hv.fatCount_pos (by omega)
    rw [Nat.zero_mul, Nat.add_zero] at hlt
    rw [fatImage, fatImage, h _ (by omega) hlt]
  unfold Loaded at hc
  exact fatNextCluster_congr (hbyte _ (by omega)) (hbyte _ (by omega))

end MasterOS.Fat
