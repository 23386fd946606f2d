/-
# Calls that fail

A write or a new directory can fail because the clusters run out or because the
directory is full. The volume is untouched when the table, the directories and the live
entries are as they were. Running out of clusters leaves it untouched, since the table
is then not written back. A full directory is found out only after the table has been
written. And a write deletes the old file first, so it leaves the volume untouched only
if there is none, or if it succeeds.
-/

import MasterOS.Fat.Capacity
import MasterOS.Fat.Crash
import MasterOS.Fat.Frame

namespace MasterOS.Fat

open MasterOS.Device MasterOS.Device.Prog MasterOS.Math

/-- From `d` to `d'` the tables, the sectors of the directories and the live entries
with their clusters stay as they are. -/
structure Untouched (m : Mount) (d d' : Disk) : Prop where
  table : ∀ lba, m.fatStart ≤ lba → lba < m.rootStart → d' lba = d lba
  dirs : ∀ dirc s lba, Reach m d dirc → dirLba m (fatAt m d) dirc s = some lba → d' lba = d lba
  entries : ∀ loc, Live m d loc → Keeps m d d' loc

theorem Untouched.refl (m : Mount) (d : Disk) : Untouched m d d :=
  ⟨fun _ _ _ => rfl, fun _ _ _ _ _ => rfl, fun _ _ => .refl _ _ _⟩

/-- An allocation that is given up leaves the table on the disk as it is: it does not
run to its end, and the table is not written back, or it changes no byte of it. -/
def Harmless (m : Mount) (fatBuf : FatBuf) (n : ℕ) : Prop :=
  capacity m.totalClusters 0 (fatNextCluster fatBuf) < n ∨
    SparesLow m.fatSecs m.totalClusters n (fatNextCluster fatBuf)

section Creation

variable {m : Mount} {d : Disk} (hw : WellFormed m d) {dirc : ℕ} (hreach : Reach m d dirc)
  {fatBuf : FatBuf} {n : ℕ} {a : Chained} (halloc : tableAlloc m d fatBuf n = .ok a)
include hw hreach halloc

/-- Writes to the taken clusters, and of a table that is the one loaded, leave the volume
untouched. -/
theorem untouched_of_creation {table : FatBuf} {writes : List (ℕ × Sector)}
    (hwrites : ∀ w ∈ writes, TableOrIn m table a.clusters w)
    (hbytes : ∀ o < m.fatSecs * 512, table o = loaded m d fatBuf o) :
    Untouched m d (applyWrites writes d) := by
  have hs := hw.toSound
  have hv := hs.valid
  have hclusters := clusters_of_tableAlloc halloc
  have hunused := unused_of_tableAlloc halloc
  have hentries (c : ℕ) (hload : Loaded m c) (_ : c ∉ a.clusters) :
      fatNextCluster table c = fatAt m d c := by
    have hloaded : fatNextCluster (loaded m d fatBuf) c = fatAt m d c := fatNextCluster_loaded hload
    unfold Loaded at hload
    exact (fatNextCluster_congr (hbytes _ (by omega)) (hbytes _ (by omega))).trans hloaded
  refine ⟨fun lba _ hlba => ?_, fun node s lba hnode hlba => ?_, fun loc hlive => ?_⟩
  · rcases applyWrites_eq_or writes d lba with hsame | ⟨w, hmem, haddr, hblock⟩
    · exact hsame
    · rw [hblock]
      rcases hwrites w hmem with htable | ⟨c, hc, k, hk, hck⟩
      · obtain ⟨f, s, hf, hs', rfl⟩ := mem_fatWrites.mp htable
        rw [← haddr, hw.copies f hf s hs']
        exact fatSector_of_loaded hbytes hs'
      · obtain ⟨h2, hlt⟩ := hclusters c hc
        have hlow := hv.dataStart_le_clusterLba h2 hlt hk
        have hdata := hv.dataStart_eq
        omega
  · refine (hs.walks hnode).dirLba_unchanged halloc (fun w hmem => ?_) s lba hlba
    rcases hwrites w hmem with htable | hcluster
    · exact fatWrites_belowOrIn hv htable
    · exact Or.inr hcluster
  · exact keeps_of_creation hs hreach (edit_of_cutWrites hv hclusters hwrites hentries fun _ => False)
      hunused (fun _ h => h.elim) hlive

/-- A creation that finds the directory full, with its table already written, leaves the
volume untouched exactly when the table is the one loaded. -/
theorem untouched_iff_of_full (hdone : a.complete = true) {writes : List (ℕ × Sector)}
    (hwrites : ∀ w ∈ writes, TableOrIn m a.fatBuf a.clusters w)
    (htable : ∀ o < m.fatSecs * 512, fatImage m (applyWrites writes d) o = a.fatBuf o) :
    Untouched m d (applyWrites writes d) ↔
      SparesLow m.fatSecs m.totalClusters n (fatNextCluster (loaded m d fatBuf)) := by
  have hv := hw.valid
  have hiff := keeps_low_iff m.fatSecs_le halloc hdone
  constructor
  · intro huntouched
    apply hiff.mp
    intro o ho
    have hspf := m.fatSecs_le_sectorsPerFat
    have hlt := hv.fatCopy_lt hv.fatCount_pos (show o / 512 < _ by omega)
    rw [Nat.zero_mul, Nat.add_zero] at hlt
    rw [← htable o ho, fatImage, huntouched.table _ (by omega) hlt, loaded, if_pos ho, fatImage]
  · intro hspares
    exact untouched_of_creation hw hreach halloc hwrites (hiff.mpr hspares)

end Creation

/-- A creation of `n` clusters does no harm when it fails: it cannot fail for want of a
slot, or its allocation does no harm. -/
def FailsClean (m : Mount) (d : Disk) (dirc : ℕ) (fatBuf : FatBuf) (n : ℕ) : Prop :=
  (∃ loc, Named m d dirc freeVerdict loc) ∨ Harmless m (loaded m d fatBuf) n

section Calls

variable {st st' : Driver} {d : Disk} (hready : Ready st d) {fuel : ℕ} {r : ℤ} {taken : List ℕ}
  {writes : List (ℕ × Sector)}
include hready

/-- The store behind the delete leaves the volume it found untouched when it fails, just
when it fails cleanly. -/
theorem storeFile_fails {name : CString} {data : ℕ → UInt8} {size : ℕ} (hsize : size < 2 ^ 32)
    (h : (storeFile fuel st name data size).Returns d ((r, taken), st') writes) :
    (r = -1 → Untouched st.mount d (applyWrites writes d)) ↔
      FailsClean st.mount d st.currentDirCluster (st.fatBuf .write)
        (clustersFor st.mount size) := by
  have hw := hready.wellFormed
  have hv := hw.valid
  obtain ⟨a, halloc, -, -, hcases⟩ := storeFile_outcome (hready.sound.walks hready.cwd) hsize h
  have hcapacity := complete_iff_le_capacity st.mount.totalClusters_le (fun h => absurd rfl h) halloc
  rcases hcases with ⟨hfailed, rfl, rfl⟩ | ⟨hdone, hnone, rfl, rfl⟩ | ⟨loc, -, hnamed, rfl, rfl⟩
  · -- out of clusters: only clusters that were free have been written
    refine iff_of_true (fun _ => ?_) (Or.inr (Or.inl ?_))
    · refine untouched_of_creation hw hready.cwd halloc (fun w hmem => Or.inr ?_) fun _ _ => rfl
      obtain ⟨j, c, k, hj, hk, -, rfl⟩ := mem_fileWrites.mp hmem
      exact ⟨c, List.mem_of_getElem? hj, k, hk, rfl⟩
    · by_contra hle
      rw [hcapacity.mpr (not_lt.mp hle)] at hfailed
      exact absurd hfailed (by decide)
  · have hiff := untouched_iff_of_full hw hready.cwd halloc hdone
      (storeWrites_tableOrIn data size a) fun o ho => by
        rw [storeWrites, applyWrites_append, fatImage_applyWrites_fatWrites hv ho]
    constructor
    · intro huntouched
      exact Or.inr (Or.inr (hiff.mp (huntouched rfl)))
    · rintro (⟨loc, hnamed⟩ | hlt | hspares) _
      · exact absurd hnamed (hnone loc)
      · have := hcapacity.mp hdone
        omega
      · exact hiff.mpr hspares
  · exact iff_of_true (fun h => absurd h (by decide)) (Or.inl ⟨loc, hnamed⟩)

/-- A new directory leaves the volume untouched when it fails, just when it fails
cleanly. -/
theorem fatMkdir_fails {name : CString} (h : (fatMkdir fuel st name).Returns d (r, st') writes) :
    (r = -1 → Untouched st.mount d (applyWrites writes d)) ↔
      FailsClean st.mount d st.currentDirCluster (st.fatBuf .mkdir) 1 := by
  have hw := hready.wellFormed
  have hv := hw.valid
  obtain ⟨taken, h⟩ := fatMkdir_returns_iff.mp h
  obtain ⟨a, halloc, -, hcases⟩ := fatMkdirTaken_outcome (hready.sound.walks hready.cwd) h
  have hcapacity := complete_iff_le_capacity st.mount.totalClusters_le (fun h => absurd rfl h) halloc
  rcases hcases with ⟨hfailed, -, rfl, rfl⟩ | ⟨c, hdone, hclusters, -, hcases⟩
  · refine iff_of_true (fun _ => .refl _ _) (Or.inr (Or.inl ?_))
    by_contra hle
    rw [hcapacity.mpr (not_lt.mp hle)] at hfailed
    exact absurd hfailed (by decide)
  · rcases hcases with ⟨hnone, rfl, rfl⟩ | ⟨loc, hnamed, rfl, rfl⟩
    · obtain ⟨h2, hlt⟩ := clusters_of_tableAlloc halloc c
        (by rw [hclusters]; exact List.mem_singleton_self c)
      have htableOrIn := mkdirWrites_tableOrIn hv st.currentDirCluster c a.fatBuf
      rw [← hclusters] at htableOrIn
      have hiff := untouched_iff_of_full hw hready.cwd halloc hdone htableOrIn fun o ho =>
        fatImage_mkdirWrites hv st.currentDirCluster a.fatBuf d h2 hlt ho
      constructor
      · intro huntouched
        exact Or.inr (Or.inr (hiff.mp (huntouched rfl)))
      · rintro (⟨loc, hnamed⟩ | hlt | hspares) _
        · exact absurd hnamed (hnone loc)
        · have := hcapacity.mp hdone
          omega
        · exact hiff.mpr hspares
    · exact iff_of_true (fun h => absurd h (by decide)) (Or.inl ⟨loc, hnamed⟩)

end Calls

/-! ## A write with its delete -/

/-- After a removal the directory has a slot that may be overwritten. -/
theorem named_free_of_removed {m : Mount} {d d' : Disk} (hs : Sound m d) {dirc n : ℕ} {loc : Loc}
    {l : List ℕ} (hreach : Reach m d dirc) (hlive : LiveAt m d dirc n loc)
    (howns : Owns m d (entryAt d loc) l) (hremoved : Removed m d d' loc l) :
    ∃ loc', Named m d' dirc freeVerdict loc' := by
  have hslot := hremoved.edit.slotAt_eq (hs.dirOk hreach)
    fun ld hld => hs.dir_disjoint_entry hreach hld hlive howns
  have htake : freeVerdict (entryAt d' loc) = .take := by
    rw [freeVerdict_eq_take_iff, hremoved.entry]
    exact Or.inr (RawDirEntry.isDeleted_markDeleted _)
  obtain ⟨n', loc', -, hfirst⟩ := exists_firstTake ((hslot n).trans hlive.1) htake
    fun k _ x _ => by unfold freeVerdict; split_ifs <;> decide
  exact ⟨loc', n', hfirst⟩

/-- The entries of the table that a write loads after it has deleted the file over the
clusters `l`. -/
def entriesWithout (fatBuf : FatBuf) (l : List ℕ) : ℕ → ℕ := fun c =>
  if c ∈ l then 0 else fatNextCluster fatBuf c

theorem fatNextCluster_freeList_eq (fatBuf : FatBuf) (l : List ℕ) :
    fatNextCluster (freeList fatBuf l) = entriesWithout fatBuf l :=
  funext fun c => fatNextCluster_freeList fatBuf l c

/-- When a write under a name leaves the volume untouched if it fails: it replaces a file
and finds the clusters it needs, so it does not fail, or there is no such file and the
store fails cleanly. -/
def WriteFailsClean (m : Mount) (d : Disk) (dirc : ℕ) (fatBuf : FatBuf) (name : CString) (n : ℕ) :
    Prop :=
  (∃ loc l, Named m d dirc (fileVerdict name) loc ∧ Owns m d (entryAt d loc) l ∧
      n ≤ capacity m.totalClusters 0 (entriesWithout (loaded m d fatBuf) l)) ∨
    (∀ loc, ¬ Named m d dirc (fileVerdict name) loc) ∧ FailsClean m d dirc fatBuf n

/-- A write leaves the volume untouched when it fails, just when it fails cleanly. -/
theorem fatWrite_fails {st st' : Driver} {d : Disk} (hready : Ready st d) {fuel : ℕ} {r : ℤ}
    {writes : List (ℕ × Sector)} {name : CString} {data : ℕ → UInt8} {size : ℕ}
    (hsize : size < 2 ^ 32) (h : (fatWrite fuel st name data size).Returns d (r, st') writes) :
    (r = -1 → Untouched st.mount d (applyWrites writes d)) ↔
      WriteFailsClean st.mount d st.currentDirCluster (st.fatBuf .write) name
        (clustersFor st.mount size) := by
  have hs := hready.sound
  obtain ⟨code, fatBuf, taken, first, second, hdelete, hstore, rfl, hs₁, hcwd₁⟩ :=
    fatWrite_split hs hready.cwd h
  have hready₁ := hready.fatDelete hdelete
  obtain ⟨-, ⟨hnone, -, rfl⟩ | ⟨loc, n, l, hnamed, hlive, howns, -, rfl⟩⟩ :=
    removeEntry_outcome hs hready.cwd (fun loc hnamed => hnamed.file.1) hdelete
  · have hfails := storeFile_fails hready₁ hsize hstore
    rw [applyWrites_nil] at hfails
    rw [List.nil_append]
    refine hfails.trans ⟨fun hclean => Or.inr ⟨hnone, hclean⟩, ?_⟩
    rintro (⟨loc, l, hnamed, -⟩ | ⟨-, hclean⟩)
    · exact absurd hnamed (hnone loc)
    · exact hclean
  · have hremoved := removed_of_removeWrites (hs.walks hready.cwd) hlive.1 howns (st.fatBuf .delete)
    obtain ⟨loc', hfree⟩ := named_free_of_removed hs hready.cwd hlive howns hremoved
    obtain ⟨a, halloc, -, -, hcases⟩ := storeFile_outcome (hs₁.walks hcwd₁) hsize hstore
    have hcapacity :=
      complete_iff_le_capacity st.mount.totalClusters_le (fun h => absurd rfl h) halloc
    have hloaded := loaded_after_removal (hs.walks hready.cwd) hlive.1 howns (st.fatBuf .delete)
      (st.fatBuf .write)
    rw [show loaded (st.keepBuf .delete fatBuf).mount _ ((st.keepBuf .delete fatBuf).fatBuf .write) =
      freeList (loaded st.mount d (st.fatBuf .write)) l from hloaded,
      fatNextCluster_freeList_eq] at hcapacity
    have hsame {l' : List ℕ} {x : Loc}
        (hx : Named st.mount d st.currentDirCluster (fileVerdict name) x)
        (hl' : Owns st.mount d (entryAt d x) l') : l' = l := by
      obtain ⟨k, htake⟩ := hx
      obtain ⟨k', htake'⟩ := hnamed
      obtain ⟨-, rfl⟩ := htake.unique htake'
      exact hl'.unique howns
    rcases hcases with ⟨hfailed, rfl, rfl⟩ | ⟨-, hnone, -⟩ | ⟨loc₁, hdone, -, rfl, -⟩
    · -- out of clusters: the record of the old file is gone
      constructor
      · intro huntouched
        have hdir := (huntouched rfl).dirs _ _ _ hready.cwd (slotAt_eq_some_iff.mp hlive.1).1
        have hkept : applyWrites (fileWrites st.mount data size 0 a.clusters)
            (applyWrites (removeWrites st.mount d (st.fatBuf .delete) l loc) d) loc.1 =
            applyWrites (removeWrites st.mount d (st.fatBuf .delete) l loc) d loc.1 := by
          have hslot := hremoved.edit.slotAt_eq (hs.dirOk hready.cwd)
            fun ld hld => hs.dir_disjoint_entry hready.cwd hld hlive howns
          exact (hs₁.walks hcwd₁).dirLba_unchanged halloc (fun w hw => fileWrites_belowOrIn hw) _ _
            (slotAt_eq_some_iff.mp ((hslot n).trans hlive.1)).1
        rw [applyWrites_append] at hdir
        have hback := hkept.symm.trans hdir
        have hentry : entryAt d loc = (entryAt d loc).markDeleted := by
          rw [← hremoved.entry, entryAt, entryAt, hback]
        have hgone := hremoved.live_eq_false.1
        rw [hremoved.entry, ← hentry] at hgone
        rw [show (entryAt d loc).live = true from hlive.2.1] at hgone
        exact absurd hgone (by decide)
      · rintro (⟨x, l', hx, hl', hle⟩ | ⟨hnone, -⟩)
        · rw [hsame hx hl'] at hle
          rw [hcapacity.mpr hle] at hfailed
          exact absurd hfailed (by decide)
        · exact absurd hnamed (hnone loc)
    · exact absurd hfree (hnone loc')
    · exact iff_of_true (fun h => absurd h (by decide))
        (Or.inl ⟨loc, l, hnamed, howns, hcapacity.mp hdone⟩)

/-- **Failed writes.** A write or a new directory that fails leaves the tables, the
directories and the live entries as they were exactly when it fails cleanly. -/
theorem failed_call_untouched_iff {st : Driver} {d : Disk} (hready : Ready st d) :
    (∀ fuel name data size r st' writes, size < 2 ^ 32 →
      (fatWrite fuel st name data size).Returns d (r, st') writes →
      ((r = -1 → Untouched st.mount d (applyWrites writes d)) ↔
        WriteFailsClean st.mount d st.currentDirCluster (st.fatBuf .write) name
          (clustersFor st.mount size))) ∧
    (∀ fuel name r st' writes, (fatMkdir fuel st name).Returns d (r, st') writes →
      ((r = -1 → Untouched st.mount d (applyWrites writes d)) ↔
        FailsClean st.mount d st.currentDirCluster (st.fatBuf .mkdir) 1)) :=
  ⟨fun _ _ _ _ _ _ _ hsize h => fatWrite_fails hready hsize h,
    fun _ _ _ _ _ h => fatMkdir_fails hready h⟩

/-! ## A full directory -/

/-- A volume whose root directory is full of volume labels. -/
def labelDisk : Disk := fun lba => .ofBytes fun k =>
  if lba = 2 then if k % 32 = 11 then 0x08 else 0x4C else 0

theorem entryAt_labelDisk {n : ℕ} {loc : Loc}
    (h : slotAt smallMount (fatAt smallMount labelDisk) 0 n = some loc) :
    (entryAt labelDisk loc).isEnd = false ∧ (entryAt labelDisk loc).isDeleted = false ∧
      (entryAt labelDisk loc).isLabel = true ∧ (entryAt labelDisk loc).isDir = false := by
  obtain ⟨hlba, hi⟩ := slotAt_eq_some_iff.mp h
  obtain ⟨lba, i⟩ := loc
  rw [dirLba, if_pos rfl] at hlba
  split_ifs at hlba with hlt
  have hlt' : n / 16 < 1 := hlt
  have hsec : n / 16 = 0 := by omega
  rw [hsec] at hlba
  obtain rfl : 2 = lba := Option.some.inj hlba
  have hi' : i < 16 := by
    omega
  have hall : ∀ i < 16, (entryAt labelDisk (2, i)).isEnd = false ∧
      (entryAt labelDisk (2, i)).isDeleted = false ∧ (entryAt labelDisk (2, i)).isLabel = true ∧
      (entryAt labelDisk (2, i)).isDir = false := by decide +kernel
  exact hall i hi'

theorem not_live_labelDisk (loc : Loc) : ¬ Live smallMount labelDisk loc := by
  have hroot {n : ℕ} {loc : Loc} : ¬ LiveAt smallMount labelDisk 0 n loc := by
    rintro ⟨hloc, hlive, -⟩
    have hlabel := RawDirEntry.isLabel_of_live (show (entryAt labelDisk loc).live = true from hlive)
    rw [(entryAt_labelDisk hloc).2.2.1] at hlabel
    exact absurd hlabel (by decide)
  have hreach {node : ℕ} (h : Reach smallMount labelDisk node) : node = 0 := by
    induction h with
    | root => rfl
    | child _ hlive _ ih => exact absurd (ih ▸ hlive) hroot
  rintro ⟨node, n, hnode, hlive⟩
  exact hroot (hreach hnode ▸ hlive)

theorem ready_labelDisk : Ready (freshDriver smallMount) labelDisk := by
  have hreach {node : ℕ} (h : Reach smallMount labelDisk node) : node = 0 := by
    rcases h.owner with hroot | ⟨loc, hlive, -⟩
    · exact hroot
    · exact absurd hlive (not_live_labelDisk loc)
  refine ⟨⟨⟨valid_smallMount, fun loc hlive => absurd hlive (not_live_labelDisk loc),
    fun loc _ _ _ hlive => absurd hlive (not_live_labelDisk loc)⟩, fun f hf s _ => ?_,
    fun node k n loc loc' hnode _ hloc _ hend => ?_, fun node n loc hnode hloc hflags => ?_⟩, .root⟩
  · have hf' : f < 1 := hf
    obtain rfl : f = 0 := by omega
    rfl
  · obtain rfl := hreach hnode
    rw [(entryAt_labelDisk hloc).1] at hend
    exact absurd hend (by decide)
  · obtain rfl := hreach hnode
    rw [(entryAt_labelDisk hloc).2.2.2] at hflags
    exact absurd hflags.2 (by decide)

/-- On that volume a new directory fails, after it has marked cluster 2 as used. -/
theorem fatMkdir_fails_labelDisk : Ready (freshDriver smallMount) labelDisk ∧
    ∃ st' writes, (fatMkdir 4 (freshDriver smallMount) nameA).Returns labelDisk (-1, st') writes ∧
      fatAt smallMount labelDisk 2 = 0 ∧
      fatAt smallMount (applyWrites writes labelDisk) 2 = 0xFFF ∧
      applyWrites writes labelDisk 1 ≠ labelDisk 1 := by
  refine ⟨ready_labelDisk, ?_⟩
  obtain ⟨st', hmkdir⟩ := returns_of_exec
    (show ((fatMkdir 4 (freshDriver smallMount) nameA).exec labelDisk).1.map Prod.fst = .ok (-1)
      by decide +kernel)
  have hused : fatAt smallMount
      (applyWrites ((fatMkdir 4 (freshDriver smallMount) nameA).exec labelDisk).2 labelDisk) 2 =
      0xFFF := by decide +kernel
  refine ⟨st', _, hmkdir, by decide +kernel, hused, fun hsame => ?_⟩
  have hbyte := congrArg (fun sector => sector.byte 3) hsame
  revert hbyte
  decide +kernel

/-- On a blank volume there is a free slot, so a write and a new directory fail cleanly if
they fail. -/
theorem failed_call_untouched_iff_blank :
    (∃ r st' writes, (fatWrite 4 (freshDriver smallMount) nameA (fun _ => 7) 1).Returns blank
      (r, st') writes ∧ (r = -1 → Untouched smallMount blank (applyWrites writes blank))) ∧
    ∃ r st' writes, (fatMkdir 4 (freshDriver smallMount) nameA).Returns labelDisk (r, st') writes ∧
      ¬ (r = -1 → Untouched smallMount labelDisk (applyWrites writes labelDisk)) := by
  constructor
  · obtain ⟨st', hstore⟩ := storeA_returns
    have hslot : ∃ loc, Named smallMount blank 0 freeVerdict loc :=
      ⟨(2, 0), 0, rfl, by decide +kernel, fun k hk => absurd hk (Nat.not_lt_zero k)⟩
    exact ⟨0, st', _, hstore, ((failed_call_untouched_iff (ready_blank valid_smallMount)).1
      _ _ _ _ _ _ _ (by decide) hstore).mpr (Or.inr ⟨not_named_blank _ _ _, Or.inl hslot⟩)⟩
  · obtain ⟨st', hmkdir⟩ := returns_of_exec
      (show ((fatMkdir 4 (freshDriver smallMount) nameA).exec labelDisk).1.map Prod.fst = .ok (-1)
        by decide +kernel)
    have hfree : fatNextCluster (loaded smallMount labelDisk
        ((freshDriver smallMount).fatBuf .mkdir)) 2 = 0 :=
      (fatNextCluster_loaded (show Loaded smallMount 2 by decide)).trans (by decide +kernel)
    have hmem := mem_freeBelow.mpr
      ⟨(show 2 ≤ 2 ∧ 2 < smallMount.totalClusters + 2 by decide), hfree⟩
    refine ⟨-1, st', _, hmkdir, fun huntouched => ?_⟩
    rcases ((failed_call_untouched_iff ready_labelDisk).2 _ _ _ _ _ hmkdir).mp huntouched with
      ⟨loc, n, hloc, htake, -⟩ | hlt | hspares
    · obtain ⟨hend, hdel, -⟩ := entryAt_labelDisk hloc
      rw [freeVerdict_eq_take_iff, hend, hdel] at htake
      exact absurd htake (by decide)
    · exact absurd (capacity_pos hmem) (Nat.not_lt.mpr (Nat.lt_succ_iff.mp hlt))
    · rcases hspares with hzero | hempty | ⟨h12, -⟩
      · exact absurd hzero (by decide)
      · have htouch := mem_freeTouching.mpr ⟨mem_freeBelow.mp hmem,
          show 2 + 2 / 2 < smallMount.fatSecs * 512 by decide⟩
        have hnone := Finset.eq_empty_iff_forall_notMem.mp hempty 2
        exact hnone htouch
      · exact absurd h12 (by decide)

end MasterOS.Fat
