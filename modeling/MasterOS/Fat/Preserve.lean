/-
# The operations keep a volume well formed

One lemma for each operation: from a well-formed volume and a directory that can be
reached, a call that returns leaves a well-formed volume and a directory that can be
reached. A call that allocates needs as many free clusters as it takes.
-/

import MasterOS.Fat.Effect

namespace MasterOS.Fat

open MasterOS.Device MasterOS.Device.Prog MasterOS.Math

/-- A driver and a disk between two calls: the volume is well formed and the current
directory can be reached. -/
structure Ready (st : Driver) (d : Disk) : Prop where
  wellFormed : WellFormed st.mount d
  cwd : Reach st.mount d st.currentDirCluster

/-- Keeping a table buffer does not touch what a volume is read by. -/
theorem ready_keepBuf_iff {st : Driver} {d : Disk} {owner : Owner} {fatBuf : FatBuf} :
    Ready (st.keepBuf owner fatBuf) d ↔ Ready st d :=
  ⟨fun h => ⟨h.wellFormed, h.cwd⟩, fun h => ⟨h.wellFormed, h.cwd⟩⟩

theorem Ready.sound {st : Driver} {d : Disk} (h : Ready st d) : Sound st.mount d :=
  h.wellFormed.toSound

/-! ## Removing -/

section Remove

variable {m : Mount} {d d' : Disk} {dirc n : ℕ} {loc : Loc} {l : List ℕ}
  (hreach : Reach m d dirc) (hlive : LiveAt m d dirc n loc) (howns : Owns m d (entryAt d loc) l)
  (hremoved : Removed m d d' loc l)

theorem Removed.live_eq_false (hremoved : Removed m d d' loc l) :
    (entryAt d' loc).live = false ∧ (entryAt d' loc).isEnd = false := by
  rw [hremoved.entry]
  exact ⟨by simp [RawDirEntry.live], by simp⟩

include hreach hlive howns hremoved

theorem Sound.removed (hs : Sound m d) : Sound m d' ∧ Reach m d' dirc := by
  obtain ⟨hgone, hnotEnd⟩ := hremoved.live_eq_false
  exact ⟨hs.removal hreach hlive howns hremoved.edit (List.Subset.refl l) hgone,
    reach_home_of_removal hs hreach hlive howns hremoved.edit (List.Subset.refl l) hnotEnd⟩

theorem WellFormed.removed (hw : WellFormed m d) : WellFormed m d' := by
  obtain ⟨hgone, hnotEnd⟩ := hremoved.live_eq_false
  refine hw.removal hreach hlive howns hremoved.edit (List.Subset.refl l) hgone hnotEnd ?_
    hremoved.copies
  rw [hremoved.entry]
  exact hw.noLabelDir dirc n loc hreach hlive.1

end Remove

section Ops

variable {st st' : Driver} {d : Disk} {fuel : ℕ} {r : ℤ} {writes : List (ℕ × Sector)}

/-- A delete leaves a sound volume and the current directory. -/
theorem fatDelete_sound (hs : Sound st.mount d) (hcwd : Reach st.mount d st.currentDirCluster)
    {name : CString} (h : (fatDelete fuel st name).Returns d (r, st') writes) :
    Sound st.mount (applyWrites writes d) ∧
      Reach st.mount (applyWrites writes d) st.currentDirCluster := by
  obtain ⟨-, ⟨-, -, rfl⟩ | ⟨loc, n, l, -, hlive, howns, -, rfl⟩⟩ :=
    removeEntry_outcome hs hcwd (fun loc hnamed => hnamed.file.1) h
  · exact ⟨hs, hcwd⟩
  · exact hs.removed hcwd hlive howns (removed_of_removeWrites (hs.walks hcwd) hlive.1 howns _)

theorem Ready.removeEntry (hready : Ready st d) {owner : Owner}
    {verdict : RawDirEntry → Verdict}
    (hlive : ∀ loc, Named st.mount d st.currentDirCluster verdict loc →
      ∃ n, LiveAt st.mount d st.currentDirCluster n loc)
    (h : (removeEntry owner verdict fuel st).Returns d (r, st') writes) :
    Ready st' (applyWrites writes d) := by
  obtain ⟨⟨fatBuf, rfl⟩, ⟨-, -, rfl⟩ | ⟨loc, n, l, -, hliveAt, howns, -, rfl⟩⟩ :=
    removeEntry_outcome hready.sound hready.cwd hlive h
  · exact ready_keepBuf_iff.mpr hready
  · have hremoved := removed_of_removeWrites (hready.sound.walks hready.cwd) hliveAt.1 howns
      (st.fatBuf owner)
    exact ready_keepBuf_iff.mpr ⟨hready.wellFormed.removed hready.cwd hliveAt howns hremoved,
      (hready.sound.removed hready.cwd hliveAt howns hremoved).2⟩

/-- `fat_delete` keeps the volume well formed. -/
theorem Ready.fatDelete (hready : Ready st d) {name : CString}
    (h : (fatDelete fuel st name).Returns d (r, st') writes) :
    Ready st' (applyWrites writes d) :=
  hready.removeEntry (fun _ hnamed => hnamed.file.1) h

/-- `fat_rmdir` keeps the volume well formed, whatever the directory held. -/
theorem Ready.fatRmdir (hready : Ready st d) {name : CString}
    (h : (fatRmdir fuel st name).Returns d (r, st') writes) :
    Ready st' (applyWrites writes d) :=
  hready.removeEntry (fun _ hnamed => (hnamed.dir hready.wellFormed hready.cwd).1) h

/-! ## Renaming -/

/-- A new name that does not read as the deletion mark leaves the same file. -/
theorem sameBody_renamedEntry {e : RawDirEntry} {newName : CString} (hlive : e.live = true)
    (hdir : e.isDir = false) (hkeeps : (renamedEntry e newName).isDeleted = false) :
    SameBody e (renamedEntry e newName) := by
  obtain ⟨hend, -, hlabel, hdir', hfirst⟩ := renamedEntry_flags e newName
  refine ⟨hend.trans (RawDirEntry.isEnd_of_live hlive).symm, ?_, hlabel, hdir', hfirst⟩
  rw [hlive]
  simp [RawDirEntry.live, hend, hkeeps, hlabel, RawDirEntry.isLabel_of_live hlive, hdir', hdir]

/-- `fat_rename` keeps the volume well formed. A name that reads as the deletion mark
takes the file out and leaves its clusters behind. -/
theorem Ready.fatRename (hready : Ready st d) {oldName newName : CString}
    (h : (fatRename fuel st oldName newName).Returns d (r, st') writes) :
    Ready st' (applyWrites writes d) := by
  have hs := hready.sound
  obtain ⟨⟨fatBuf, rfl⟩, ⟨-, -, rfl⟩ | ⟨loc, hnamed, -, rfl⟩⟩ :=
    fatRename_outcome (hs.walks hready.cwd) h
  · exact ready_keepBuf_iff.mpr hready
  · obtain ⟨⟨n, hlive⟩, hdir, -⟩ := hnamed.file
    obtain ⟨hedit, hentry, hcopies⟩ := slotWrite_effect (hs.walks hready.cwd) hlive.1
      (renamedEntry (entryAt d loc) newName)
    refine ready_keepBuf_iff.mpr ?_
    obtain ⟨hend, -, -, hdir', -⟩ := renamedEntry_flags (entryAt d loc) newName
    cases hdel : (renamedEntry (entryAt d loc) newName).isDeleted with
    | false =>
        have hbody : ∀ x, x = loc → SameBody (entryAt d x)
            (entryAt (applyWrites [slotWrite d loc (renamedEntry (entryAt d loc) newName)] d) x) := by
          rintro x rfl
          rw [hentry]
          exact sameBody_renamedEntry hlive.2.1 hdir hdel
        have hunused : Unused st.mount d [] := fun x hx => by simp at hx
        exact ⟨hready.wellFormed.rename hedit hunused hbody (hcopies hready.wellFormed.copies),
          (reach_iff_of_rename hs hedit hunused hbody).mpr hready.cwd⟩
    | true =>
        obtain ⟨l, howns⟩ := hs.owns loc (hlive.live hready.cwd)
        have hgone : (entryAt (applyWrites [slotWrite d loc
            (renamedEntry (entryAt d loc) newName)] d) loc).live = false := by
          rw [hentry]
          simp [RawDirEntry.live, hdel]
        refine ⟨hready.wellFormed.removal hready.cwd hlive howns hedit (List.nil_subset l) hgone
          (by rw [hentry]; exact hend) ?_ (hcopies hready.wellFormed.copies),
          reach_home_of_removal hs hready.cwd hlive howns hedit (List.nil_subset l)
            (by rw [hentry]; exact hend)⟩
        rw [hentry, hdir', hdir]
        simp

end Ops

/-! ## Creating -/

/-- The clusters that a write to this name frees first: those of the file it finds. -/
def Replaced (m : Mount) (d : Disk) (dirc : ℕ) (name : CString) (l : List ℕ) : Prop :=
  (∃ loc, Named m d dirc (fileVerdict name) loc ∧ Owns m d (entryAt d loc) l) ∨
    (∀ loc, ¬ Named m d dirc (fileVerdict name) loc) ∧ l = []

/-- The table that a write searches, once its delete is done. -/
theorem table_after_delete {st st' : Driver} {d : Disk} (hs : Sound st.mount d)
    (hcwd : Reach st.mount d st.currentDirCluster) {name : CString} {fuel : ℕ} {r : ℤ}
    {writes : List (ℕ × Sector)} (h : (fatDelete fuel st name).Returns d (r, st') writes)
    {l : List ℕ}
    (hreplaced : Replaced st.mount d st.currentDirCluster name l) (fatBuf : FatBuf) :
    loaded st.mount (applyWrites writes d) fatBuf = freeList (loaded st.mount d fatBuf) l := by
  obtain ⟨-, ⟨hnone, -, rfl⟩ | ⟨loc₀, n, l₀, ⟨k, htake⟩, hliveAt, howns, -, rfl⟩⟩ :=
    removeEntry_outcome hs hcwd (fun _ hnamed => hnamed.file.1) h
  · rcases hreplaced with ⟨loc, hnamed, -⟩ | ⟨-, rfl⟩
    · exact absurd hnamed (hnone loc)
    · rfl
  · rcases hreplaced with ⟨loc, ⟨k', htake'⟩, howns'⟩ | ⟨hnone, -⟩
    · obtain ⟨-, rfl⟩ := htake.unique htake'
      rw [howns'.unique howns]
      exact loaded_after_removal (hs.walks hcwd) hliveAt.1 howns _ _
    · exact absurd ⟨k, htake⟩ (hnone loc₀)

/-- `n` data clusters are free, counting those of the file that is replaced. -/
def Fits (m : Mount) (d : Disk) (dirc : ℕ) (name : CString) (n : ℕ) : Prop :=
  ∃ l, Replaced m d dirc name l ∧
    n ≤ ((Finset.range 4096).filter fun c => DataCluster m c ∧ (fatAt m d c = 0 ∨ c ∈ l)).card

/-- What fits is free once the old file is deleted. -/
theorem Fits.after_delete {st st' : Driver} {d : Disk} (hs : Sound st.mount d)
    (hcwd : Reach st.mount d st.currentDirCluster) {name : CString} {n fuel : ℕ} {r : ℤ}
    {writes : List (ℕ × Sector)} (hfits : Fits st.mount d st.currentDirCluster name n)
    (h : (fatDelete fuel st name).Returns d (r, st') writes) :
    n ≤ (freeClusters st.mount (fatAt st.mount (applyWrites writes d))).card := by
  obtain ⟨l, hreplaced, hcard⟩ := hfits
  refine le_trans hcard (Finset.card_le_card fun c hc => ?_)
  rw [Finset.mem_filter] at hc
  obtain ⟨-, hok, hfree⟩ := hc
  rw [mem_freeClusters]
  refine ⟨hok, ?_⟩
  obtain ⟨-, ⟨hnone, -, rfl⟩ | ⟨loc, k, l', hnamed, hlive, howns, -, rfl⟩⟩ :=
    removeEntry_outcome hs hcwd (fun loc hnamed => hnamed.file.1) h
  · rcases hreplaced with ⟨loc, hnamed, -⟩ | ⟨-, rfl⟩
    · exact absurd hnamed (hnone loc)
    · simpa using hfree
  · have hremoved := removed_of_removeWrites (hs.walks hcwd) hlive.1 howns (st.fatBuf .delete)
    rcases hreplaced with ⟨loc', ⟨n', htake'⟩, howns'⟩ | ⟨hnone, -⟩
    · obtain ⟨n₀, htake⟩ := hnamed
      obtain ⟨-, rfl⟩ := htake.unique htake'
      rw [howns'.unique howns] at hfree
      by_cases hcl : c ∈ l'
      · exact hremoved.freed c hcl
      · rw [hremoved.edit.table c hok.2.2 hcl]
        exact hfree.resolve_right hcl
    · exact absurd hnamed (hnone loc)

/-- The record a file is stored under. -/
theorem newEntry_flags (name : CString) (attributes : UInt8) (firstCluster fileSize : ℕ) :
    (newEntry name attributes firstCluster fileSize).isEnd = false ∧
      (newEntry name attributes firstCluster fileSize).startsWithDot = false := by
  obtain ⟨hzero, hdot⟩ := split83_fst_zero_ne name
  constructor
  · simpa [RawDirEntry.isEnd, newEntry] using hzero
  · simpa [RawDirEntry.startsWithDot, newEntry] using hdot

theorem firstCluster_newEntry (name : CString) (attributes : UInt8) {c : ℕ} (hc : c < 2 ^ 16)
    (fileSize : ℕ) : (newEntry name attributes c fileSize).firstCluster.toNat = c := by
  rw [newEntry, UInt16.toNat_ofNat', Nat.mod_eq_of_lt hc]

/-- The slots before the first free one neither end the directory nor are deleted. -/
theorem FirstTake.before_free {slot : ℕ → Option Loc} {d : Disk} {n : ℕ} {loc : Loc}
    (h : FirstTake slot d freeVerdict n loc) {k : ℕ} (hk : k < n) {loc' : Loc}
    (hloc' : slot k = some loc') :
    (entryAt d loc').isEnd = false ∧ (entryAt d loc').isDeleted = false :=
  freeVerdict_eq_skip_iff.mp (h.2.2 k hk loc' hloc')

section Store

variable {m : Mount} {d : Disk} {fatBuf : FatBuf} {n : ℕ} {l : List ℕ} {fatBuf' : FatBuf}
  (hspec : AllocSpec (DataCluster m) (loaded m d fatBuf) 0 n l fatBuf')
include hspec

/-- The head of an allocated chain, or 0 for no cluster, is a cluster number. -/
theorem AllocSpec.headD_lt : l.headD 0 < 4096 := by
  cases l with
  | nil => simp
  | cons c l => exact (hspec.free c List.mem_cons_self).1.lt

/-- A file stored over an allocated chain owns it. -/
theorem AllocSpec.owns_newEntry {d' : Disk}
    (htable : ∀ c, Loaded m c → fatAt m d' c = fatNextCluster fatBuf' c) (name : CString)
    (size : ℕ) : Owns m d' (newEntry name 0x00 (l.headD 0) size) l := by
  have hlt := hspec.headD_lt
  have hfirst := firstCluster_newEntry name 0x00 (show l.headD 0 < 2 ^ 16 by omega) size
  by_cases hnil : l = []
  · exact Or.inl ⟨by simp [RawDirEntry.isDir, newEntry], by rw [hfirst, hnil]; rfl, hnil⟩
  · refine Or.inr ?_
    rw [hfirst]
    have hchain := hspec.chain hnil
    exact hchain.congr fun x hx => htable x (hchain.ok_of_mem hx).2.2

end Store

/-- A file placed in the first free slot, over clusters that were free, keeps the
volume well formed. -/
theorem WellFormed.created_file {m : Mount} {d d' : Disk} (hw : WellFormed m d) {dirc k : ℕ}
    {loc : Loc} {e : RawDirEntry} {a : Chained} (hreach : Reach m d dirc)
    (htake : FirstTake (slotAt m (fatAt m d) dirc) d freeVerdict k loc)
    (hcreated : Created m d d' loc e a) (hunused : Unused m d a.clusters)
    (hend : e.isEnd = false) (hdir : e.isDir = false) (howns : Owns m d' e a.clusters) :
    WellFormed m d' ∧ Reach m d' dirc := by
  have hentry := hcreated.entry
  subst hentry
  have hnoDir {p : Prop} (h : (entryAt d' loc).isDir = true) : p := by
    rw [hdir] at h
    exact absurd h (by decide)
  exact ⟨hw.insertion hreach htake.1 (fun k' hk' loc' hloc' => (htake.before_free hk' hloc').1)
      hcreated.edit hunused hend (fun _ h => hnoDir h)
      (fun _ => ⟨_, List.Subset.refl _, howns⟩) (fun h => hnoDir h.2) (fun h => hnoDir h)
      (fun h => hnoDir h) hcreated.copies,
    reach_after_insertion hcreated.edit hunused hw.toSound (live_eq_false_of_free htake.2.1) hend
      hreach⟩

section Ops

variable {st st' : Driver} {d : Disk} {fuel : ℕ} {r : ℤ} {writes : List (ℕ × Sector)}

/-- The store behind the delete, with enough free clusters: the chain is allocated, and
the record is placed if a slot is free. -/
theorem storeFile_outcome_of_room (hs : Sound st.mount d)
    (hcwd : Reach st.mount d st.currentDirCluster) {name : CString} {data : ℕ → UInt8} {size : ℕ}
    (hsize : size < 2 ^ 32)
    (hroom : clustersFor st.mount size ≤ (freeClusters st.mount (fatAt st.mount d)).card)
    {taken : List ℕ}
    (h : (storeFile fuel st name data size).Returns d ((r, taken), st') writes) :
    ∃ l fatBuf', tableAlloc st.mount d (st.fatBuf .write) (clustersFor st.mount size) =
        .ok ⟨true, l, fatBuf'⟩ ∧
      AllocSpec (DataCluster st.mount) (loaded st.mount d (st.fatBuf .write)) 0 (clustersFor st.mount size) l
        fatBuf' ∧ taken = l ∧ st' = st.keepBuf .write fatBuf' ∧
      ((∀ loc, ¬ Named st.mount d st.currentDirCluster freeVerdict loc) ∧ r = -1 ∧
          writes = storeWrites st.mount data size ⟨true, l, fatBuf'⟩ ∨
        ∃ loc, Named st.mount d st.currentDirCluster freeVerdict loc ∧ r = 0 ∧
          writes = storeWrites st.mount data size ⟨true, l, fatBuf'⟩ ++
            [slotWrite d loc (newEntry name 0x00 (l.headD 0) size)]) := by
  obtain ⟨l, fatBuf', halloc, hspec⟩ := tableAlloc_of_room hroom (st.fatBuf .write)
  obtain ⟨a, halloc', htaken, hst, hcases⟩ := storeFile_outcome (hs.walks hcwd) hsize h
  rw [halloc] at halloc'
  injection halloc' with ha
  subst ha
  refine ⟨l, fatBuf', halloc, hspec, htaken, hst, ?_⟩
  rcases hcases with ⟨hfalse, -⟩ | ⟨-, hnone, hr, hwrites⟩ | ⟨loc, -, hnamed, hr, hwrites⟩
  · simp at hfalse
  · exact Or.inl ⟨hnone, hr, hwrites⟩
  · exact Or.inr ⟨loc, hnamed, hr, hwrites⟩

/-- Edits of clusters that were free, with no record touched, keep the volume well
formed. -/
theorem Ready.edit_unused (hready : Ready st d) {d' : Disk} {C : List ℕ}
    (hedit : Edit st.mount d d' (fun _ => False) C) (hunused : Unused st.mount d C)
    (hcopies : Copies st.mount d') : Ready st d' := by
  have hbody : ∀ loc, False → SameBody (entryAt d loc) (entryAt d' loc) := fun _ h => h.elim
  exact ⟨hready.wellFormed.rename hedit hunused hbody hcopies,
    (reach_iff_of_rename hready.sound hedit hunused hbody).mpr hready.cwd⟩

theorem Ready.storeFile (hready : Ready st d) {name : CString} {data : ℕ → UInt8} {size : ℕ}
    (hsize : size < 2 ^ 32)
    (hroom : clustersFor st.mount size ≤ (freeClusters st.mount (fatAt st.mount d)).card)
    {taken : List ℕ}
    (h : (storeFile fuel st name data size).Returns d ((r, taken), st') writes) :
    Ready st' (applyWrites writes d) := by
  have hs := hready.sound
  have hv := hs.valid
  obtain ⟨l, fatBuf', halloc, hspec, -, rfl, hcases⟩ :=
    storeFile_outcome_of_room hs hready.cwd hsize hroom h
  have hwalk := hs.walks hready.cwd
  have hunused := unused_of_tableAlloc halloc
  refine ready_keepBuf_iff.mpr ?_
  rcases hcases with ⟨-, -, rfl⟩ | ⟨loc, ⟨k, htake⟩, -, rfl⟩
  · -- no free slot: the table has a new chain and nothing points at it
    exact hready.edit_unused (edit_of_storeWrites hwalk halloc data size fun _ => False) hunused
      (copies_storeWrites hv data size ⟨true, l, fatBuf'⟩ d)
  · have hcreated := created_of_storeWrites hwalk halloc htake.1 data size
      (newEntry name 0x00 (l.headD 0) size)
    obtain ⟨hw', hcwd'⟩ := hready.wellFormed.created_file hready.cwd htake hcreated hunused
      (newEntry_flags name 0x00 (l.headD 0) size).1 (by simp [RawDirEntry.isDir, newEntry])
      (hspec.owns_newEntry hcreated.table name size)
    exact ⟨hw', hcwd'⟩

/-- A write that returns is a delete, which leaves a sound volume and the current
directory, and a store. -/
theorem fatWrite_split (hs : Sound st.mount d) (hcwd : Reach st.mount d st.currentDirCluster)
    {name : CString} {data : ℕ → UInt8} {size : ℕ}
    (h : (fatWrite fuel st name data size).Returns d (r, st') writes) :
    ∃ code fatBuf taken first second,
      (fatDelete fuel st name).Returns d (code, st.keepBuf .delete fatBuf) first ∧
      (storeFile fuel (st.keepBuf .delete fatBuf) name data size).Returns (applyWrites first d)
        ((r, taken), st') second ∧
      writes = first ++ second ∧ Sound (st.keepBuf .delete fatBuf).mount (applyWrites first d) ∧
      Reach (st.keepBuf .delete fatBuf).mount (applyWrites first d)
        (st.keepBuf .delete fatBuf).currentDirCluster := by
  obtain ⟨taken, h⟩ := (fatWrite_returns_iff name data).mp h
  obtain ⟨⟨code, st₁⟩, first, second, hdelete, hstore, rfl⟩ :=
    (fatWriteTaken_returns_iff name data hs.valid).mp h
  obtain ⟨⟨fatBuf, rfl⟩, -⟩ :=
    removeEntry_outcome hs hcwd (fun loc hnamed => hnamed.file.1) hdelete
  have hsound := fatDelete_sound hs hcwd hdelete
  exact ⟨code, fatBuf, taken, first, second, hdelete, hstore, rfl, hsound⟩

/-- A write leaves the mounted volume and the current directory as they are. -/
theorem fatWrite_driver (hs : Sound st.mount d) (hcwd : Reach st.mount d st.currentDirCluster)
    {name : CString} {data : ℕ → UInt8} {size : ℕ} (hsize : size < 2 ^ 32)
    (h : (fatWrite fuel st name data size).Returns d (r, st') writes) :
    st'.mount = st.mount ∧ st'.currentDirCluster = st.currentDirCluster := by
  obtain ⟨code, fatBuf, taken, first, second, -, hstore, -, hs₁, hcwd₁⟩ :=
    fatWrite_split hs hcwd h
  obtain ⟨a, -, -, rfl, -⟩ := storeFile_outcome (hs₁.walks hcwd₁) hsize hstore
  exact ⟨rfl, rfl⟩

/-- `fat_write` keeps the volume well formed when the file fits. -/
theorem Ready.fatWrite (hready : Ready st d) {name : CString} {data : ℕ → UInt8} {size : ℕ}
    (hsize : size < 2 ^ 32)
    (hfits : Fits st.mount d st.currentDirCluster name (clustersFor st.mount size))
    (h : (fatWrite fuel st name data size).Returns d (r, st') writes) :
    Ready st' (applyWrites writes d) := by
  obtain ⟨code, fatBuf, taken, first, second, hdelete, hstore, rfl, -⟩ :=
    fatWrite_split hready.sound hready.cwd h
  have hready₁ := hready.fatDelete hdelete
  rw [applyWrites_append]
  exact hready₁.storeFile hsize (hfits.after_delete hready.sound hready.cwd hdelete) hstore

end Ops

end MasterOS.Fat
