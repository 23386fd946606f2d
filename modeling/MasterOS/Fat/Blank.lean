/-
# Blank volumes

A disk of zeros is a well-formed volume under every valid geometry: its root
directory ends at its first slot and every cluster is free. It is the volume that the
concrete runs of this development start from.
-/

import MasterOS.Fat.Directories

namespace MasterOS.Fat

open MasterOS.Device MasterOS.Device.Prog MasterOS.Math

/-- A disk of zeros. -/
def blank : Disk := fun _ => .ofBytes fun _ => 0

theorem entryAt_blank (loc : Loc) :
    (entryAt blank loc).isEnd = true ∧ (entryAt blank loc).isLabel = false :=
  ⟨isEnd_entry_zero, by
    rw [RawDirEntry.isLabel, show (entryAt blank loc).attributes = 0 from byte_zeroSector _]
    rfl⟩

theorem fatAt_blank (m : Mount) (c : ℕ) : fatAt m blank c = 0 := by
  have hzero (o : ℕ) : fatImage m blank o = 0 := byte_zeroSector _
  rcases Nat.mod_two_eq_zero_or_one c with hc | hc
  · rw [fatAt, fatNextCluster_even _ hc, hzero, hzero]
    rfl
  · rw [fatAt, fatNextCluster_odd _ hc, hzero, hzero]
    rfl

/-- Nothing is live on a blank disk. -/
theorem not_liveAt_blank (m : Mount) (dirc n : ℕ) (loc : Loc) : ¬ LiveAt m blank dirc n loc := by
  rintro ⟨-, hlive, -⟩
  have hend := RawDirEntry.isEnd_of_live (show (entryAt blank loc).live = true from hlive)
  rw [(entryAt_blank loc).1] at hend
  exact absurd hend (by decide)

section BlankBelow

variable {m : Mount} (hv : m.Valid) {d : Disk} (hblank : ∀ lba < m.dataStart, d lba = blank lba)
include hv hblank

theorem not_liveAt_root_of_blank_below (n : ℕ) (loc : Loc) : ¬ LiveAt m d 0 n loc := by
  rintro ⟨hloc, hlive, -⟩
  have hend := RawDirEntry.isEnd_of_live (show (entryAt d loc).live = true from hlive)
  rw [entryAt_root_of_same_below hv hblank hloc, (entryAt_blank loc).1] at hend
  exact absurd hend (by decide)

/-- **A disk of zeros up to its data sectors is a well-formed volume**, whatever the data
sectors hold. -/
theorem wellFormed_of_blank_below : WellFormed m d := by
  have hroot {n : ℕ} {loc : Loc} (hloc : slotAt m (fatAt m d) 0 n = some loc) :=
    entryAt_root_of_same_below hv hblank hloc
  have hnotLive := not_liveAt_root_of_blank_below hv hblank
  have hreach {dirc : ℕ} (h : Reach m d dirc) : dirc = 0 := by
    induction h with
    | root => rfl
    | child _ hlive _ ih => exact absurd (ih ▸ hlive) (hnotLive _ _)
  have hnone (loc : Loc) : ¬ Live m d loc := by
    rintro ⟨dirc, n, hdirc, hlive⟩
    exact hnotLive n loc (hreach hdirc ▸ hlive)
  refine ⟨⟨hv, fun loc hlive => absurd hlive (hnone loc),
    fun loc _ _ _ hlive => absurd hlive (hnone loc)⟩, fun f hf s hs => ?_,
    fun dirc _ _ _ loc' hdirc _ _ hloc' _ => ?_, fun dirc _ loc hdirc hloc hflags => ?_⟩
  · have hsectors := m.fatSecs_le_sectorsPerFat
    have hcopy := hv.fatCopy_lt hf (show s < _ by omega)
    have hdata := hv.dataStart_eq
    rw [hblank _ (by omega), hblank _ (by omega)]
    rfl
  · obtain rfl := hreach hdirc
    rw [hroot hloc', (entryAt_blank loc').1]
  · obtain rfl := hreach hdirc
    rw [hroot hloc, (entryAt_blank loc).2] at hflags
    exact absurd hflags.1 (by decide)

end BlankBelow

/-- **A blank disk is a well-formed volume.** -/
theorem wellFormed_blank {m : Mount} (hv : m.Valid) : WellFormed m blank :=
  wellFormed_of_blank_below hv fun _ _ => rfl

/-- The driver after `fat_init`, in the root directory. -/
def freshDriver (m : Mount) : Driver where
  mount := m
  currentDirCluster := 0
  currentPath := [0x2F]
  fatBuf _ _ := 0

theorem ready_blank {m : Mount} (hv : m.Valid) : Ready (freshDriver m) blank :=
  ⟨wellFormed_blank hv, .root⟩

/-- One free data cluster is room for one. -/
theorem room_of_free {m : Mount} {d : Disk} {c : ℕ} (hok : DataCluster m c)
    (hfree : fatAt m d c = 0) : 1 ≤ (freeClusters m (fatAt m d)).card :=
  Finset.card_pos.mpr ⟨c, mem_freeClusters.mpr ⟨hok, hfree⟩⟩

/-- No name finds a file on a blank disk. -/
theorem not_named_blank (m : Mount) (dirc : ℕ) (name : CString) (loc : Loc) :
    ¬ Named m blank dirc (fileVerdict name) loc := fun h => by
  obtain ⟨⟨n, hlive⟩, -⟩ := h.file
  exact not_liveAt_blank m dirc n loc hlive

/-- On a blank disk a file fits when there are enough data clusters. -/
theorem fits_blank {m : Mount} {dirc n : ℕ} {name : CString} (l : List ℕ) (hnodup : l.Nodup)
    (hdata : ∀ c ∈ l, DataCluster m c) (hlen : n ≤ l.length) : Fits m blank dirc name n := by
  refine ⟨[], Or.inr ⟨not_named_blank m dirc name, rfl⟩, ?_⟩
  calc n ≤ l.length := hlen
    _ = l.toFinset.card := (List.toFinset_card_of_nodup hnodup).symm
    _ ≤ _ := Finset.card_le_card fun c hc => by
      have hc' := hdata c (List.mem_toFinset.mp hc)
      rw [Finset.mem_filter, Finset.mem_range]
      exact ⟨hc'.lt, hc', Or.inl (fatAt_blank m c)⟩

/-- What is live comes before the end of the directory. -/
theorem LiveAt.lt_of_isEnd {m : Mount} {d : Disk} {dirc n k : ℕ} {loc loc' : Loc}
    (h : LiveAt m d dirc n loc) (hslot : slotAt m (fatAt m d) dirc k = some loc')
    (hend : (entryAt d loc').isEnd = true) : n < k := by
  obtain ⟨hloc, hlive, hbefore⟩ := h
  by_contra hnot
  rcases Nat.eq_or_lt_of_le (not_lt.mp hnot) with rfl | hlt
  · obtain rfl : loc' = loc := Option.some.inj (hslot.symm.trans hloc)
    exact entryKind.not_isEnd_of_live _ hlive hend
  · exact hbefore k hlt loc' hslot hend

/-- A run that returns, read off its evaluation. -/
theorem returns_of_exec {α β : Type} {p : FatProg (α × β)} {d : Disk} {value : α}
    (h : (p.exec d).1.map Prod.fst = .ok value) :
    ∃ state, p.Returns d (value, state) (p.exec d).2 := by
  rcases hexec : p.exec d with ⟨fault | ⟨value', state⟩, writes⟩
  · rw [hexec] at h
    injection h
  · rw [hexec] at h
    injection h with h
    have hvalue : value' = value := h
    exact ⟨state, by rw [Returns, hexec, hvalue]⟩

/-! ## A small geometry -/

/-- One reserved sector, one table of one sector, a root directory of one sector, and
one sector to a cluster. -/
def smallMount : Mount := mountOf
  { bytesPerSector := 512, sectorsPerCluster := 1, reservedSectors := 1, fatCount := 1,
    rootEntryCount := 16, totalSectors16 := 342, sectorsPerFat := 1, totalSectors32 := 0 }

theorem valid_smallMount : smallMount.Valid where
  mounted := rfl
  bytesPerSector := rfl
  spc_pos := by decide
  fatCount_pos := by decide
  reserved_pos := by decide

/-- The name `A`. -/
def nameA : CString := ⟨[0x41], by decide +kernel⟩

/-- The name `B`. -/
def nameB : CString := ⟨[0x42], by decide +kernel⟩

/-- The name `C`. -/
def nameC : CString := ⟨[0x43], by decide +kernel⟩

/-- The name `..`. -/
def dotDot : CString := ⟨[0x2E, 0x2E], by decide +kernel⟩

/-- A letter is a name. -/
theorem valid83_single {c : UInt8} {hnul : ∀ b ∈ [c], b ≠ 0}
    (hc : c ≠ 0x2E ∧ c ≠ 0x20 ∧ c ≠ 0xE5) : Valid83 ⟨[c], hnul⟩ := by
  refine ⟨[c], [], rfl, Nat.le_refl 1, show 1 ≤ 8 by decide, Nat.zero_le 3, fun b hb => ?_,
    fun h => hc.2.2 (Option.some.inj h)⟩
  obtain rfl := List.mem_singleton.mp hb
  exact ⟨hc.1, hc.2.1⟩

theorem valid83_nameA : Valid83 nameA := valid83_single (by decide)

theorem valid83_nameB : Valid83 nameB := valid83_single (by decide)

theorem valid83_nameC : Valid83 nameC := valid83_single (by decide)

/-! ## A volume with one file -/

/-- The call that stores one byte under the name `A` on a blank volume. -/
def storeA : FatProg (ℤ × Driver) := fatWrite 4 (freshDriver smallMount) nameA (fun _ => 7) 1

/-- The disk that call leaves. -/
def fileDisk : Disk := applyWrites (storeA.exec blank).2 blank

theorem fits_nameA : Fits smallMount blank 0 nameA (clustersFor smallMount 1) :=
  fits_blank [2] (by simp) (by decide) (by decide)

theorem storeA_returns : ∃ st, storeA.Returns blank (0, st) (storeA.exec blank).2 :=
  returns_of_exec rfl

theorem ready_fileDisk : Ready (freshDriver smallMount) fileDisk := by
  obtain ⟨st, hstore⟩ := storeA_returns
  have hready := ready_blank valid_smallMount
  have hready' := hready.fatWrite (by decide) fits_nameA hstore
  obtain ⟨hmount, hcwd⟩ := fatWrite_driver hready.sound hready.cwd (by decide) hstore
  exact ⟨hmount ▸ hready'.wellFormed, hcwd ▸ hmount ▸ hready'.cwd⟩

theorem entryAt_fileDisk :
    (entryAt fileDisk (2, 0)).live = true ∧ (entryAt fileDisk (2, 0)).isDir = false ∧
      (entryAt fileDisk (2, 0)).matches nameB = false ∧
      (entryAt fileDisk (2, 1)).isEnd = true := ⟨rfl, rfl, rfl, rfl⟩

/-- The root directory of that volume holds the file and nothing else. -/
theorem liveAt_fileDisk_iff {n : ℕ} {loc : Loc} :
    LiveAt smallMount fileDisk 0 n loc ↔ n = 0 ∧ loc = (2, 0) := by
  obtain ⟨hlive, -, -, hend⟩ := entryAt_fileDisk
  constructor
  · intro h
    obtain rfl : n = 0 := Nat.lt_one_iff.mp (h.lt_of_isEnd rfl hend)
    exact ⟨rfl, (Option.some.inj h.1).symm⟩
  · rintro ⟨rfl, rfl⟩
    exact ⟨rfl, hlive, fun k hk => absurd hk (Nat.not_lt_zero k)⟩

theorem live_fileDisk : Live smallMount fileDisk (2, 0) :=
  ⟨0, 0, .root, liveAt_fileDisk_iff.mpr ⟨rfl, rfl⟩⟩

theorem not_named_fileDisk (loc : Loc) : ¬ Named smallMount fileDisk 0 (fileVerdict nameB) loc := by
  intro h
  obtain ⟨⟨n, hlive⟩, -, hmatches⟩ := h.file
  obtain ⟨-, rfl⟩ := liveAt_fileDisk_iff.mp hlive
  rw [entryAt_fileDisk.2.2.1] at hmatches
  exact absurd hmatches (by decide)

theorem fits_nameB : Fits smallMount fileDisk 0 nameB (clustersFor smallMount 1) := by
  refine ⟨[], Or.inr ⟨not_named_fileDisk, rfl⟩, Finset.card_pos.mpr ⟨3, ?_⟩⟩
  rw [Finset.mem_filter, Finset.mem_range]
  exact ⟨by decide, by decide, Or.inl rfl⟩

end MasterOS.Fat
