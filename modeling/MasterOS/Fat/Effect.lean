/-
# The operations as edits

Every call that returns has one of a few outcomes, and the writes of each outcome are
an edit of the volume. Here the outcomes are listed for a call with any fuel, and the
edits are given with what is now in the record and in the table.
-/

import MasterOS.Fat.Edit

namespace MasterOS.Fat

open MasterOS.Device MasterOS.Device.Prog MasterOS.Math

/-- A call that returns does so with fuel beyond the bound of every loop. -/
theorem returns_of_more_fuel {α : Type} {p : ℕ → FatProg α}
    (hext : ∀ fuel fuel', fuel ≤ fuel' → (p fuel).Extends (p fuel')) {fuel : ℕ} {d : Disk}
    {value : α} {writes : List (ℕ × Sector)} (h : (p fuel).Returns d value writes) :
    ∃ big, loopBound < big ∧ (p big).Returns d value writes :=
  ⟨max fuel (loopBound + 1), lt_of_lt_of_le (Nat.lt_succ_self _) (le_max_right _ _),
    hext _ _ (le_max_left _ _) d value writes h⟩

/-! ## What a verdict says about a record -/

theorem fileVerdict_eq_take_iff {name : CString} {e : RawDirEntry} :
    fileVerdict name e = .take ↔
      e.live = true ∧ e.isDir = false ∧ e.matches name = true := by
  unfold fileVerdict RawDirEntry.live
  cases e.isEnd <;> cases e.isDeleted <;> cases e.isLabel <;> cases e.isDir <;>
    cases e.matches name <;> simp

theorem dirVerdict_eq_take_iff {name : CString} {e : RawDirEntry}
    (hflags : ¬ (e.isLabel = true ∧ e.isDir = true)) :
    dirVerdict name e = .take ↔
      e.live = true ∧ e.isDir = true ∧ e.matches name = true := by
  unfold dirVerdict RawDirEntry.live
  cases hend : e.isEnd <;> cases hdel : e.isDeleted <;> cases hlabel : e.isLabel <;>
    cases hdir : e.isDir <;> cases hdot : e.startsWithDot <;> cases e.matches name <;>
    simp_all

theorem freeVerdict_eq_take_iff {e : RawDirEntry} :
    freeVerdict e = .take ↔ e.isEnd = true ∨ e.isDeleted = true := by
  unfold freeVerdict
  cases e.isEnd <;> cases e.isDeleted <;> simp

/-- Only a slot that does not end the directory is passed over. -/
theorem isEnd_of_fileVerdict_skip {name : CString} {e : RawDirEntry}
    (h : fileVerdict name e = .skip) : e.isEnd = false := by
  unfold fileVerdict at h
  cases hend : e.isEnd with
  | false => rfl
  | true => simp [hend] at h

theorem isEnd_of_dirVerdict_skip {name : CString} {e : RawDirEntry}
    (h : dirVerdict name e = .skip) : e.isEnd = false := by
  unfold dirVerdict at h
  cases hend : e.isEnd with
  | false => rfl
  | true => simp [hend] at h

theorem freeVerdict_eq_skip_iff {e : RawDirEntry} :
    freeVerdict e = .skip ↔ e.isEnd = false ∧ e.isDeleted = false := by
  unfold freeVerdict
  cases e.isEnd <;> cases e.isDeleted <;> simp

theorem live_eq_false_of_free {e : RawDirEntry} (h : freeVerdict e = .take) : e.live = false := by
  rcases freeVerdict_eq_take_iff.mp h with h | h <;> simp [RawDirEntry.live, h]

section Named

variable {m : Mount} {d : Disk} {dirc : ℕ} {name : CString} {loc : Loc}

/-- The file a name finds is live. -/
theorem Named.file (h : Named m d dirc (fileVerdict name) loc) :
    (∃ n, LiveAt m d dirc n loc) ∧ (entryAt d loc).isDir = false ∧
      (entryAt d loc).matches name = true := by
  obtain ⟨n, hloc, htake, hbefore⟩ := h
  obtain ⟨hlive, hdir, hmatches⟩ := fileVerdict_eq_take_iff.mp htake
  refine ⟨⟨n, hloc, hlive, fun k hk loc' hloc' hend => ?_⟩, hdir, hmatches⟩
  have hnot := isEnd_of_fileVerdict_skip (hbefore k hk loc' hloc')
  rw [show (entryAt d loc').isEnd = true from hend] at hnot
  exact absurd hnot (by decide)

/-- The directory a name finds is live. -/
theorem Named.dir (hw : WellFormed m d) (hreach : Reach m d dirc)
    (h : Named m d dirc (dirVerdict name) loc) :
    (∃ n, LiveAt m d dirc n loc) ∧ (entryAt d loc).isDir = true ∧
      (entryAt d loc).matches name = true := by
  obtain ⟨n, hloc, htake, hbefore⟩ := h
  obtain ⟨hlive, hdir, hmatches⟩ :=
    (dirVerdict_eq_take_iff (hw.noLabelDir dirc n loc hreach hloc)).mp htake
  refine ⟨⟨n, hloc, hlive, fun k hk loc' hloc' hend => ?_⟩, hdir, hmatches⟩
  have hnot := isEnd_of_dirVerdict_skip (hbefore k hk loc' hloc')
  rw [show (entryAt d loc').isEnd = true from hend] at hnot
  exact absurd hnot (by decide)

/-- A slot's index in its sector. -/
theorem slot_lt {next : ℕ → ℕ} {n : ℕ} (h : slotAt m next dirc n = some loc) : loc.2 < 16 := by
  have := (slotAt_eq_some_iff.mp h).2
  omega

theorem Named.slot_lt {verdict : RawDirEntry → Verdict} (h : Named m d dirc verdict loc) :
    loc.2 < 16 := by
  obtain ⟨n, hloc, -⟩ := h
  exact MasterOS.Fat.slot_lt hloc

/-- A slot of a directory that can be walked lies behind the tables. -/
theorem rootStart_le_slot (hwalk : Walks m d dirc) {n : ℕ}
    (h : slotAt m (fatAt m d) dirc n = some loc) : m.rootStart ≤ loc.1 :=
  (dirLba_bounds hwalk.valid.usable hwalk.dirOk (slotAt_eq_some_iff.mp h).1).1

end Named

/-! ## Removing -/

/-- What the writes of a removal leave. -/
structure Removed (m : Mount) (d d' : Disk) (loc : Loc) (l : List ℕ) : Prop where
  edit : Edit m d d' (fun x => x = loc) l
  entry : entryAt d' loc = (entryAt d loc).markDeleted
  freed : ∀ x ∈ l, fatAt m d' x = 0
  copies : Copies m d'

theorem copies_of_outside {m : Mount} (hv : m.Valid) {d d' : Disk}
    (h : ∀ lba, m.fatStart ≤ lba → lba < m.rootStart → d' lba = d lba) (hcopies : Copies m d) :
    Copies m d' := by
  intro f hf s hs
  have hspf := m.fatSecs_le_sectorsPerFat
  have hlt := hv.fatCopy_lt hf (show s < _ by omega)
  have hlt₀ := hv.fatCopy_lt hv.fatCount_pos (show s < _ by omega)
  rw [Nat.zero_mul, Nat.add_zero] at hlt₀
  rw [h _ (by omega) hlt, h _ (by omega) hlt₀]
  exact hcopies f hf s hs

theorem copies_applyWrites_fatWrites {m : Mount} (hv : m.Valid) (fatBuf : FatBuf) (d : Disk) :
    Copies m (applyWrites (fatWrites m fatBuf) d) := by
  intro f hf s hs
  have hfirst : applyWrites (fatWrites m fatBuf) d
      (m.fatStart + 0 * m.bpb.sectorsPerFat.toNat + s) = fatSector fatBuf s :=
    applyWrites_fatWrites hv.fatCount_pos hs
  rw [Nat.zero_mul, Nat.add_zero] at hfirst
  rw [applyWrites_fatWrites hf hs, hfirst]

/-- A directory sector's write leaves what is in front of the directories alone. -/
theorem applyWrites_slotWrite_of_lt {m : Mount} {d d' : Disk} {loc : Loc} {e : RawDirEntry}
    (hroot : m.rootStart ≤ loc.1) {lba : ℕ} (hlt : lba < m.rootStart) :
    applyWrites [slotWrite d loc e] d' lba = d' lba := by
  refine applyWrites_of_forall_ne fun w hw heq => ?_
  rw [List.mem_singleton] at hw
  have : loc.1 = lba := by rw [← heq, hw]; rfl
  omega

theorem applyWrites_slotWrite_low {m : Mount} {d d' : Disk} {loc : Loc} {e : RawDirEntry}
    (hroot : m.rootStart ≤ loc.1) (lba : ℕ) (_ : m.fatStart ≤ lba) (hlt : lba < m.rootStart) :
    applyWrites [slotWrite d loc e] d' lba = d' lba :=
  applyWrites_slotWrite_of_lt hroot hlt

/-- The clusters of an entry have addresses of their own. -/
theorem Owns.clusters {m : Mount} {d : Disk} {e : RawDirEntry} {l : List ℕ} (h : Owns m d e l) :
    ∀ c ∈ l, 2 ≤ c ∧ c < 6146 := by
  intro c hc
  have hok := h.dataCluster hc
  have hlt := hok.lt
  exact ⟨hok.1, by omega⟩

section Remove

variable {m : Mount} {d : Disk} (hv : m.Valid) {e : RawDirEntry} {l : List ℕ}
  (howns : Owns m d e l) (fatBuf : FatBuf)
include hv howns

omit howns in
/-- The table that a removal writes: free where the chain was, and as it was elsewhere. -/
theorem fatAt_removedBuf {c : ℕ} (hload : Loaded m c) :
    fatAt m (applyWrites (fatWrites m (removedBuf m d fatBuf l)) d) c =
      if c ∈ l then 0 else fatAt m d c := by
  rw [fatAt_applyWrites_fatWrites hv hload, removedBuf, fatNextCluster_freeList,
    fatNextCluster_loaded hload]

/-- The table's writes of a removal edit the chain and no record. -/
theorem edit_of_removedBuf (S : Loc → Prop) :
    Edit m d (applyWrites (fatWrites m (removedBuf m d fatBuf l)) d) S l :=
  .of_writes howns.clusters (fun _ hw => fatWrites_belowOrIn hv hw) fun c hload hc => by
    rw [fatAt_removedBuf hv fatBuf hload, if_neg hc]

end Remove

/-- The effect of a removal. -/
theorem removed_of_removeWrites {m : Mount} {d : Disk} {dirc n : ℕ} {loc : Loc} {l : List ℕ}
    (hwalk : Walks m d dirc) (hloc : slotAt m (fatAt m d) dirc n = some loc)
    (howns : Owns m d (entryAt d loc) l) (fatBuf : FatBuf) :
    Removed m d (applyWrites (removeWrites m d fatBuf l loc) d) loc l := by
  have hv := hwalk.valid
  have hroot := rootStart_le_slot hwalk hloc
  have hsame : applyWrites (fatWrites m (removedBuf m d fatBuf l)) d loc.1 = d loc.1 :=
    applyWrites_fatWrites_of_outside hv (Or.inr hroot)
  have hfirst := edit_of_removedBuf hv howns fatBuf fun _ => False
  have hsecond := Edit.of_slotWrite hv hroot hsame (entryAt d loc).markDeleted
  rw [removeWrites, applyWrites_append]
  refine ⟨(hfirst.trans hsecond).mono (fun x hx => hx.resolve_left id) ?_ howns.clusters,
    entryAt_applyWrites_slotWrite _ (slot_lt hloc), fun x hx => ?_,
    copies_of_outside hv (applyWrites_slotWrite_low hroot) (copies_applyWrites_fatWrites hv _ d)⟩
  · rw [List.append_nil]
    exact List.Subset.refl l
  · have hload := (howns.dataCluster hx).2.2
    rw [fatAt_congr hv (applyWrites_slotWrite_low hroot) hload, fatAt_removedBuf hv fatBuf hload,
      if_pos hx]

/-- What a call loads after a removal: the chain is free, and every other byte of the table
and of the buffer is as before. -/
theorem loaded_after_removal {m : Mount} {d : Disk} {dirc n : ℕ} {loc : Loc} {l : List ℕ}
    (hwalk : Walks m d dirc) (hloc : slotAt m (fatAt m d) dirc n = some loc)
    (howns : Owns m d (entryAt d loc) l) (fatBuf fatBuf' : FatBuf) :
    loaded m (applyWrites (removeWrites m d fatBuf l loc) d) fatBuf' =
      freeList (loaded m d fatBuf') l := by
  have hv := hwalk.valid
  have hroot := rootStart_le_slot hwalk hloc
  funext o
  by_cases ho : o < m.fatSecs * 512
  · have hspf := m.fatSecs_le_sectorsPerFat
    have hlt := hv.fatCopy_lt hv.fatCount_pos (show o / 512 < _ by omega)
    rw [Nat.zero_mul, Nat.add_zero] at hlt
    have himage : fatImage m (applyWrites (removeWrites m d fatBuf l loc) d) o =
        fatImage m (applyWrites (fatWrites m (removedBuf m d fatBuf l)) d) o := by
      rw [removeWrites, applyWrites_append, fatImage, fatImage,
        applyWrites_slotWrite_low hroot _ (by omega) hlt]
    rw [loaded, if_pos ho, himage, fatImage_applyWrites_fatWrites hv ho, removedBuf]
    apply freeList_congr
    rw [loaded, if_pos ho, loaded, if_pos ho]
  · rw [freeList_of_behind, loaded, if_neg ho, loaded, if_neg ho]
    intro c hc
    have hload := (howns.dataCluster hc).2.2
    unfold Loaded at hload
    omega

/-- A removal that returns found nothing, or removed the record its test takes first. -/
theorem removeEntry_outcome {st : Driver} {d : Disk} (hs : Sound st.mount d)
    (hcwd : Reach st.mount d st.currentDirCluster) {owner : Owner}
    {verdict : RawDirEntry → Verdict} {fuel : ℕ}
    (hlive : ∀ loc, Named st.mount d st.currentDirCluster verdict loc →
      ∃ n, LiveAt st.mount d st.currentDirCluster n loc)
    {r : ℤ} {st' : Driver} {writes : List (ℕ × Sector)}
    (h : (removeEntry owner verdict fuel st).Returns d (r, st') writes) :
    (∃ fatBuf, st' = st.keepBuf owner fatBuf) ∧
    (((∀ loc, ¬ Named st.mount d st.currentDirCluster verdict loc) ∧ r = -1 ∧ writes = []) ∨
      ∃ loc n l, Named st.mount d st.currentDirCluster verdict loc ∧
        LiveAt st.mount d st.currentDirCluster n loc ∧ Owns st.mount d (entryAt d loc) l ∧
        r = 0 ∧ writes = removeWrites st.mount d (st.fatBuf owner) l loc) := by
  obtain ⟨big, hmax, hreturns⟩ :=
    returns_of_more_fuel (fun _ _ hle => removeEntry_extends hle st owner verdict) h
  by_cases hnamed : ∃ loc, Named st.mount d st.currentDirCluster verdict loc
  · obtain ⟨loc, hnamed⟩ := hnamed
    obtain ⟨n, hliveAt⟩ := hlive loc hnamed
    obtain ⟨l, howns⟩ := hs.owns loc (hliveAt.live hcwd)
    obtain ⟨heq, rfl⟩ := hreturns.unique (removeEntry_returns_some (hs.walks hcwd) hmax hnamed howns
      fun ld hld => hs.dir_disjoint_entry hcwd hld hliveAt howns)
    injection heq with hr hst
    exact ⟨⟨_, hst⟩, Or.inr ⟨loc, n, l, hnamed, hliveAt, howns, hr, rfl⟩⟩
  · have hnone := not_exists.mp hnamed
    obtain ⟨heq, rfl⟩ := hreturns.unique (removeEntry_returns_none (hs.walks hcwd) hmax hnone)
    injection heq with hr hst
    exact ⟨⟨_, hst⟩, Or.inl ⟨hnone, hr, rfl⟩⟩

/-! ## Renaming -/

section Rename

variable {st : Driver} {d : Disk} (hwalk : Walks st.mount d st.currentDirCluster)
include hwalk

/-- A rename that returns found nothing, or wrote the new name into the record found. -/
theorem fatRename_outcome {oldName newName : CString} {fuel : ℕ} {r : ℤ} {st' : Driver}
    {writes : List (ℕ × Sector)}
    (h : (fatRename fuel st oldName newName).Returns d (r, st') writes) :
    (∃ fatBuf, st' = st.keepBuf .rename fatBuf) ∧
    (((∀ loc, ¬ Named st.mount d st.currentDirCluster (fileVerdict oldName) loc) ∧ r = -1 ∧
        writes = []) ∨
      ∃ loc, Named st.mount d st.currentDirCluster (fileVerdict oldName) loc ∧ r = 0 ∧
        writes = [slotWrite d loc (renamedEntry (entryAt d loc) newName)]) := by
  obtain ⟨big, hmax, hreturns⟩ :=
    returns_of_more_fuel (fun _ _ hle => fatRename_extends hle st oldName newName) h
  by_cases hnamed : ∃ loc, Named st.mount d st.currentDirCluster (fileVerdict oldName) loc
  · obtain ⟨loc, hnamed⟩ := hnamed
    obtain ⟨heq, rfl⟩ := hreturns.unique (fatRename_returns_some hwalk newName hmax hnamed)
    injection heq with hr hst
    exact ⟨⟨_, hst⟩, Or.inr ⟨loc, hnamed, hr, rfl⟩⟩
  · have hnone := not_exists.mp hnamed
    obtain ⟨heq, rfl⟩ := hreturns.unique (fatRename_returns_none hwalk newName hmax hnone)
    injection heq with hr hst
    exact ⟨⟨_, hst⟩, Or.inl ⟨hnone, hr, rfl⟩⟩

end Rename

/-- The record with a new name stands for the same file, unless the new name reads as
the deletion mark. -/
theorem renamedEntry_flags (e : RawDirEntry) (newName : CString) :
    (renamedEntry e newName).isEnd = false ∧ (renamedEntry e newName).startsWithDot = false ∧
      (renamedEntry e newName).isLabel = e.isLabel ∧ (renamedEntry e newName).isDir = e.isDir ∧
      (renamedEntry e newName).firstCluster = e.firstCluster := by
  obtain ⟨hzero, hdot⟩ := split83_fst_zero_ne newName
  refine ⟨?_, ?_, rfl, rfl, rfl⟩
  · simpa [RawDirEntry.isEnd, renamedEntry] using hzero
  · simpa [RawDirEntry.startsWithDot, renamedEntry] using hdot

/-- The effect of writing one directory sector. -/
theorem slotWrite_effect {m : Mount} {d : Disk} {dirc n : ℕ} {loc : Loc}
    (hwalk : Walks m d dirc) (hloc : slotAt m (fatAt m d) dirc n = some loc) (e : RawDirEntry) :
    Edit m d (applyWrites [slotWrite d loc e] d) (fun x => x = loc) [] ∧
      entryAt (applyWrites [slotWrite d loc e] d) loc = e ∧
      (Copies m d → Copies m (applyWrites [slotWrite d loc e] d)) := by
  have hroot := rootStart_le_slot hwalk hloc
  exact ⟨.of_slotWrite hwalk.valid hroot rfl e, entryAt_applyWrites_slotWrite e (slot_lt hloc),
    copies_of_outside hwalk.valid (applyWrites_slotWrite_low hroot)⟩

/-! ## Creating -/

section Alloc

variable {m : Mount} {d : Disk} {fatBuf : FatBuf} {n : ℕ} {a : Chained}
  (halloc : tableAlloc m d fatBuf n = .ok a)
include halloc

/-- The clusters an allocation takes were free on the disk. -/
theorem unused_of_tableAlloc : Unused m d a.clusters := by
  intro x hx hok
  obtain ⟨h2, -, hfree⟩ := allocChain_mem halloc hx
  rw [fatNextCluster_loaded hok.2.2] at hfree
  exact hfree.resolve_right (by omega)

theorem clusters_of_tableAlloc : ∀ c ∈ a.clusters, 2 ≤ c ∧ c < 6146 := by
  intro c hc
  obtain ⟨h2, hlt, -⟩ := allocChain_mem halloc hc
  have := m.totalClusters_le
  exact ⟨h2, by omega⟩

/-- The entries of clusters that were not taken are those of the disk. -/
theorem table_of_tableAlloc {c : ℕ} (hload : Loaded m c) (hc : c ∉ a.clusters) :
    fatNextCluster a.fatBuf c = fatAt m d c := by
  rw [allocChain_other halloc hc fun h => absurd rfl h, fatNextCluster_loaded hload]

end Alloc

theorem freeClusters_loaded (m : Mount) (d : Disk) (fatBuf : FatBuf) :
    freeClusters m (fatNextCluster (loaded m d fatBuf)) = freeClusters m (fatAt m d) := by
  ext c
  rw [mem_freeClusters, mem_freeClusters]
  constructor
  · rintro ⟨hok, hzero⟩
    exact ⟨hok, by rw [← fatNextCluster_loaded hok.2.2]; exact hzero⟩
  · rintro ⟨hok, hzero⟩
    exact ⟨hok, by rw [fatNextCluster_loaded hok.2.2]; exact hzero⟩

/-- With enough free data clusters on the disk the allocation builds its chain. -/
theorem tableAlloc_of_room {m : Mount} {d : Disk} {n : ℕ}
    (hroom : n ≤ (freeClusters m (fatAt m d)).card) (fatBuf : FatBuf) :
    ∃ l fatBuf', tableAlloc m d fatBuf n = .ok ⟨true, l, fatBuf'⟩ ∧
      AllocSpec (DataCluster m) (loaded m d fatBuf) 0 n l fatBuf' := by
  have hcard : n ≤ (freeClusters m (fatNextCluster (loaded m d fatBuf))).card := by
    rw [freeClusters_loaded]
    exact hroom
  exact (window_dataCluster m).allocChain_of_room hcard fun h => absurd rfl h

section Store

variable {st : Driver} {d : Disk} (hwalk : Walks st.mount d st.currentDirCluster)
  {name : CString} {data : ℕ → UInt8} {size : ℕ}
  (hsize : size < 2 ^ 32) {fuel : ℕ}
include hwalk hsize

/-- The outcomes of the store behind the delete: out of clusters, no free slot, or the
record placed. -/
theorem storeFile_outcome {r : ℤ} {taken : List ℕ} {st' : Driver} {writes : List (ℕ × Sector)}
    (h : (storeFile fuel st name data size).Returns d ((r, taken), st') writes) :
    ∃ a, tableAlloc st.mount d (st.fatBuf .write) (clustersFor st.mount size) = .ok a ∧
      taken = a.clusters ∧ st' = st.keepBuf .write a.fatBuf ∧
      (a.complete = false ∧ r = -1 ∧ writes = fileWrites st.mount data size 0 a.clusters ∨
        a.complete = true ∧ (∀ loc, ¬ Named st.mount d st.currentDirCluster freeVerdict loc) ∧
          r = -1 ∧ writes = storeWrites st.mount data size a ∨
        ∃ loc, a.complete = true ∧ Named st.mount d st.currentDirCluster freeVerdict loc ∧ r = 0 ∧
          writes = storeWrites st.mount data size a ++
            [slotWrite d loc (newEntry name 0x00 (a.clusters.headD 0) size)]) := by
  obtain ⟨big, hmax, hreturns⟩ :=
    returns_of_more_fuel (fun _ _ hle => storeFile_extends hle st name data size) h
  cases halloc : tableAlloc st.mount d (st.fatBuf .write) (clustersFor st.mount size) with
  | error fault =>
      obtain ⟨writes', hstop⟩ := storeFile_stops hwalk name data hsize hmax halloc
      rw [Returns, hstop] at hreturns
      injection hreturns with hreturns
      injection hreturns
  | ok a =>
      refine ⟨a, rfl, ?_⟩
      cases hcomplete : a.complete with
      | false =>
          obtain ⟨heq, rfl⟩ := hreturns.unique
            (storeFile_returns_noRoom hwalk name data hsize hmax halloc hcomplete)
          injection heq with heq hst
          injection heq with hr htaken
          exact ⟨htaken, hst, Or.inl ⟨rfl, hr, rfl⟩⟩
      | true =>
          by_cases hnamed : ∃ loc, Named st.mount d st.currentDirCluster freeVerdict loc
          · obtain ⟨loc, hnamed⟩ := hnamed
            obtain ⟨heq, rfl⟩ := hreturns.unique
              (storeFile_returns_some hwalk name data hsize hmax halloc hcomplete hnamed)
            injection heq with heq hst
            injection heq with hr htaken
            exact ⟨htaken, hst, Or.inr (Or.inr ⟨loc, rfl, hnamed, hr, rfl⟩)⟩
          · have hnone := not_exists.mp hnamed
            obtain ⟨heq, rfl⟩ := hreturns.unique
              (storeFile_returns_noSlot hwalk name data hsize hmax halloc hcomplete hnone)
            injection heq with heq hst
            injection heq with hr htaken
            exact ⟨htaken, hst, Or.inr (Or.inl ⟨rfl, hnone, hr, rfl⟩)⟩

end Store

/-- What a creation leaves when it has placed its record. -/
structure Created (m : Mount) (d d' : Disk) (loc : Loc) (e : RawDirEntry) (a : Chained) :
    Prop where
  edit : Edit m d d' (fun x => x = loc) a.clusters
  entry : entryAt d' loc = e
  table : ∀ c, Loaded m c → fatAt m d' c = fatNextCluster a.fatBuf c
  copies : Copies m d'

/-- The table on the disk after writes that end with it, or go elsewhere. -/
theorem fatAt_storeWrites {m : Mount} (hv : m.Valid) (data : ℕ → UInt8) (size : ℕ) (a : Chained)
    (d : Disk) {c : ℕ} (hload : Loaded m c) :
    fatAt m (applyWrites (storeWrites m data size a) d) c = fatNextCluster a.fatBuf c := by
  rw [storeWrites, applyWrites_append, fatAt_applyWrites_fatWrites hv hload]

theorem fatImage_mkdirWrites {m : Mount} (hv : m.Valid) (parent : ℕ) {c₀ : ℕ} (fatBuf : FatBuf)
    (d : Disk) (h2 : 2 ≤ c₀) (hlt : c₀ < 6146) {o : ℕ} (ho : o < m.fatSecs * 512) :
    fatImage m (applyWrites (mkdirWrites m parent c₀ fatBuf) d) o = fatBuf o := by
  have hlow := hv.dataStart_le_clusterLba h2 hlt hv.spc_pos
  have hdata := hv.dataStart_eq
  have hspf := m.fatSecs_le_sectorsPerFat
  have hfat := hv.fatCopy_lt hv.fatCount_pos (show o / 512 < _ by omega)
  rw [Nat.zero_mul, Nat.add_zero] at hfat
  have hother : applyWrites [(m.clusterLba c₀ 0, newDirSector c₀ parent)]
      (applyWrites (fatWrites m fatBuf) d) (m.fatStart + o / 512) =
      applyWrites (fatWrites m fatBuf) d (m.fatStart + o / 512) := by
    apply applyWrites_of_forall_ne
    intro w hw heq
    rw [List.mem_singleton] at hw
    have : m.clusterLba c₀ 0 = m.fatStart + o / 512 := by rw [← heq, hw]
    omega
  rw [mkdirWrites, applyWrites_append, fatImage, hother]
  exact fatImage_applyWrites_fatWrites hv ho

theorem fatAt_mkdirWrites {m : Mount} (hv : m.Valid) (parent : ℕ) {c₀ : ℕ} (fatBuf : FatBuf)
    (d : Disk) (h2 : 2 ≤ c₀) (hlt : c₀ < 6146) {c : ℕ} (hload : Loaded m c) :
    fatAt m (applyWrites (mkdirWrites m parent c₀ fatBuf) d) c = fatNextCluster fatBuf c := by
  unfold Loaded at hload
  exact fatNextCluster_congr (fatImage_mkdirWrites hv parent fatBuf d h2 hlt (by omega))
    (fatImage_mkdirWrites hv parent fatBuf d h2 hlt (by omega))

/-- The copies of the table after writes that include it. -/
theorem copies_storeWrites {m : Mount} (hv : m.Valid) (data : ℕ → UInt8) (size : ℕ) (a : Chained)
    (d : Disk) : Copies m (applyWrites (storeWrites m data size a) d) := by
  rw [storeWrites, applyWrites_append]
  exact copies_applyWrites_fatWrites hv _ _

theorem copies_mkdirWrites {m : Mount} (hv : m.Valid) (parent : ℕ) {c₀ : ℕ} (fatBuf : FatBuf)
    (d : Disk) (h2 : 2 ≤ c₀) (hlt : c₀ < 6146) :
    Copies m (applyWrites (mkdirWrites m parent c₀ fatBuf) d) := by
  have hlow := hv.dataStart_le_clusterLba h2 hlt hv.spc_pos
  have hdata := hv.dataStart_eq
  rw [mkdirWrites, applyWrites_append]
  refine copies_of_outside hv (fun lba _ hlba => ?_) (copies_applyWrites_fatWrites hv fatBuf d)
  refine applyWrites_of_forall_ne fun w hw heq => ?_
  rw [List.mem_singleton] at hw
  have : m.clusterLba c₀ 0 = lba := by rw [← heq, hw]
  omega

section Created

variable {m : Mount} {d : Disk} {dirc n : ℕ} (hwalk : Walks m d dirc)
  {fatBuf : FatBuf} {a : Chained} (halloc : tableAlloc m d fatBuf n = .ok a)
  {writes : List (ℕ × Sector)} (hwrites : ∀ w ∈ writes, BelowOrIn m a.clusters w)
  (htable : ∀ c, Loaded m c → fatAt m (applyWrites writes d) c = fatNextCluster a.fatBuf c)
include halloc hwrites htable

/-- The writes of a creation before it places its record edit only free clusters. -/
theorem edit_of_tableAlloc (S : Loc → Prop) : Edit m d (applyWrites writes d) S a.clusters :=
  .of_writes (clusters_of_tableAlloc halloc) hwrites fun c hload hc => by
    rw [htable c hload, table_of_tableAlloc halloc hload hc]

include hwalk

/-- The effect of a creation that places its record. -/
theorem created_of_slotWrite {k : ℕ} {loc : Loc} (hloc : slotAt m (fatAt m d) dirc k = some loc)
    (hcopies : Copies m (applyWrites writes d)) (e : RawDirEntry) :
    Created m d (applyWrites (writes ++ [slotWrite d loc e]) d) loc e a := by
  have hv := hwalk.valid
  have hroot := rootStart_le_slot hwalk hloc
  have hsame : applyWrites writes d loc.1 = d loc.1 :=
    hwalk.dirLba_unchanged halloc hwrites _ _ (slotAt_eq_some_iff.mp hloc).1
  have hfirst := edit_of_tableAlloc halloc hwrites htable fun _ => False
  have hsecond := Edit.of_slotWrite hv hroot hsame e
  rw [applyWrites_append]
  refine ⟨(hfirst.trans hsecond).mono (fun x hx => hx.resolve_left id) ?_
    (clusters_of_tableAlloc halloc), entryAt_applyWrites_slotWrite _ (slot_lt hloc),
    fun c hload => ?_, copies_of_outside hv (applyWrites_slotWrite_low hroot) hcopies⟩
  · rw [List.append_nil]
    exact List.Subset.refl _
  · rw [fatAt_congr hv (applyWrites_slotWrite_low hroot) hload, htable c hload]

end Created

section Placing

variable {m : Mount} {d : Disk} {dirc n : ℕ} (hwalk : Walks m d dirc) {fatBuf : FatBuf}
  {a : Chained} (halloc : tableAlloc m d fatBuf n = .ok a)
include hwalk halloc

/-- The writes of `fat_write` behind its delete, without the record. -/
theorem edit_of_storeWrites (data : ℕ → UInt8) (size : ℕ) (S : Loc → Prop) :
    Edit m d (applyWrites (storeWrites m data size a) d) S a.clusters :=
  edit_of_tableAlloc halloc (storeWrites_belowOrIn hwalk.valid data size a)
    (fun _ hload => fatAt_storeWrites hwalk.valid data size a d hload) S

/-- A file placed in a slot. -/
theorem created_of_storeWrites {k : ℕ} {loc : Loc}
    (hloc : slotAt m (fatAt m d) dirc k = some loc) (data : ℕ → UInt8) (size : ℕ)
    (e : RawDirEntry) :
    Created m d (applyWrites (storeWrites m data size a ++ [slotWrite d loc e]) d) loc e a :=
  created_of_slotWrite hwalk halloc (storeWrites_belowOrIn hwalk.valid data size a)
    (fun _ hload => fatAt_storeWrites hwalk.valid data size a d hload) hloc
    (copies_storeWrites hwalk.valid data size a d) e

variable {c : ℕ} (hclusters : a.clusters = [c])
include hclusters

/-- The writes of `fat_mkdir` without the record. -/
theorem edit_of_mkdirWrites (parent : ℕ) (S : Loc → Prop) :
    Edit m d (applyWrites (mkdirWrites m parent c a.fatBuf) d) S a.clusters := by
  obtain ⟨h2, hlt⟩ := clusters_of_tableAlloc halloc c (hclusters ▸ List.mem_singleton_self c)
  refine edit_of_tableAlloc halloc ?_
    (fun _ hload => fatAt_mkdirWrites hwalk.valid parent a.fatBuf d h2 hlt hload) S
  rw [hclusters]
  exact mkdirWrites_belowOrIn hwalk.valid parent c a.fatBuf

/-- A directory placed in a slot. -/
theorem created_of_mkdirWrites {k : ℕ} {loc : Loc}
    (hloc : slotAt m (fatAt m d) dirc k = some loc) (parent : ℕ) (e : RawDirEntry) :
    Created m d (applyWrites (mkdirWrites m parent c a.fatBuf ++ [slotWrite d loc e]) d) loc e
      a := by
  obtain ⟨h2, hlt⟩ := clusters_of_tableAlloc halloc c (hclusters ▸ List.mem_singleton_self c)
  refine created_of_slotWrite hwalk halloc ?_
    (fun _ hload => fatAt_mkdirWrites hwalk.valid parent a.fatBuf d h2 hlt hload) hloc
    (copies_mkdirWrites hwalk.valid parent a.fatBuf d h2 hlt) e
  rw [hclusters]
  exact mkdirWrites_belowOrIn hwalk.valid parent c a.fatBuf

end Placing

section Mkdir

variable {st : Driver} {d : Disk} (hwalk : Walks st.mount d st.currentDirCluster)
  {name : CString} {fuel : ℕ}
include hwalk

/-- The outcomes of `fat_mkdir`: no free cluster, no free slot, or the record placed. -/
theorem fatMkdirTaken_outcome {r : ℤ} {taken : List ℕ} {st' : Driver}
    {writes : List (ℕ × Sector)}
    (h : (fatMkdirTaken fuel st name).Returns d ((r, taken), st') writes) :
    ∃ a, tableAlloc st.mount d (st.fatBuf .mkdir) 1 = .ok a ∧
      (∃ fatBuf, st' = st.keepBuf .mkdir fatBuf) ∧
      (a.complete = false ∧ taken = [] ∧ r = -1 ∧ writes = [] ∨
        ∃ c, a.complete = true ∧ a.clusters = [c] ∧ taken = [c] ∧
          ((∀ loc, ¬ Named st.mount d st.currentDirCluster freeVerdict loc) ∧ r = -1 ∧
            writes = mkdirWrites st.mount st.currentDirCluster c a.fatBuf ∨
          ∃ loc, Named st.mount d st.currentDirCluster freeVerdict loc ∧ r = 0 ∧
            writes = mkdirWrites st.mount st.currentDirCluster c a.fatBuf ++
              [slotWrite d loc (newEntry name 0x10 c 0)])) := by
  obtain ⟨big, hmax, hreturns⟩ :=
    returns_of_more_fuel (fun _ _ hle => fatMkdirTaken_extends hle st name) h
  cases halloc : tableAlloc st.mount d (st.fatBuf .mkdir) 1 with
  | error fault =>
      obtain ⟨writes', hstop⟩ := fatMkdirTaken_stops hwalk name halloc
      rw [Returns, hstop] at hreturns
      injection hreturns with hreturns
      injection hreturns
  | ok a =>
      refine ⟨a, rfl, ?_⟩
      cases hcomplete : a.complete with
      | false =>
          obtain ⟨heq, rfl⟩ := hreturns.unique
            (fatMkdirTaken_returns_noRoom hwalk name halloc hcomplete)
          injection heq with heq hst
          injection heq with hr htaken
          exact ⟨⟨_, hst⟩, Or.inl ⟨rfl, htaken, hr, rfl⟩⟩
      | true =>
          by_cases hnamed : ∃ loc, Named st.mount d st.currentDirCluster freeVerdict loc
          · obtain ⟨loc, hnamed⟩ := hnamed
            obtain ⟨c, hclusters, hret⟩ :=
              fatMkdirTaken_returns_some hwalk name hmax halloc hcomplete hnamed
            obtain ⟨heq, rfl⟩ := hreturns.unique hret
            injection heq with heq hst
            injection heq with hr htaken
            exact ⟨⟨_, hst⟩, Or.inr ⟨c, rfl, hclusters, htaken,
              Or.inr ⟨loc, hnamed, hr, rfl⟩⟩⟩
          · have hnone := not_exists.mp hnamed
            obtain ⟨c, hclusters, hret⟩ :=
              fatMkdirTaken_returns_noSlot hwalk name hmax halloc hcomplete hnone
            obtain ⟨heq, rfl⟩ := hreturns.unique hret
            injection heq with heq hst
            injection heq with hr htaken
            exact ⟨⟨_, hst⟩, Or.inr ⟨c, rfl, hclusters, htaken, Or.inl ⟨hnone, hr, rfl⟩⟩⟩

end Mkdir

end MasterOS.Fat
