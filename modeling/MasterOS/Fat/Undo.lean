/-
# Removing what was just made

A file that is written and deleted, and a directory that is made and removed, leave the volume
as it was, but for the slot of the record. The entries that an allocation sets are entries of
free clusters, and the freeing loop visits these clusters and no others, so by the laws of the
packed table every byte of it comes back.
-/

import MasterOS.Fat.Contents
import MasterOS.Fat.Table

namespace MasterOS.Fat

open MasterOS.Device MasterOS.Device.Prog MasterOS.Math

/-! ## The table -/

/-- An allocation only sets the entries of clusters that it takes or links behind. -/
theorem allocChain_edited {total n prev : ℕ} {fatBuf : FatBuf} {r : Chained}
    (h : allocChain total n prev fatBuf = .ok r) {cells : List ℕ}
    (hcells : ∀ c ∈ r.clusters, c ∈ cells) (hprev : prev ≠ 0 → prev ∈ cells) :
    Edited fatSetCluster cells fatBuf r.fatBuf := by
  induction n generalizing prev fatBuf r with
  | zero =>
      injection h with h
      rw [← h]
      exact .refl
  | succ n ih =>
      rcases allocChain_succ_eq_ok h with ⟨-, rfl⟩ | ⟨c, rest, hc, hne, hrest, rfl⟩
      · exact .refl
      · have hin : c ∈ cells := hcells c List.mem_cons_self
        have hrest' := ih hrest (fun x hx => hcells x (List.mem_cons_of_mem _ hx)) fun _ => hin
        have hmark : Edited fatSetCluster cells (if prev ≠ 0 then fatSetCluster fatBuf prev c
            else fatBuf) (takeCluster fatBuf prev c) := .single ⟨c, hin, 0xFFF, rfl⟩
        have hlink : Edited fatSetCluster cells fatBuf (if prev ≠ 0 then
            fatSetCluster fatBuf prev c else fatBuf) := by
          by_cases hzero : prev ≠ 0
          · rw [if_pos hzero]
            exact .single ⟨prev, hprev hzero, c, rfl⟩
          · rw [if_neg hzero]
            exact .refl
        exact (hlink.trans hmark).trans hrest'

/-- Freeing sets entries back that were free. -/
theorem freeList_eq_setBack {fatBuf : FatBuf} {l : List ℕ}
    (h : ∀ c ∈ l, fatNextCluster fatBuf c = 0) (t : FatBuf) :
    freeList t l = setBack fatNextCluster fatSetCluster fatBuf l t := by
  induction l generalizing t with
  | nil => rfl
  | cons c l ih =>
      rw [setBack, List.foldl_cons, h c List.mem_cons_self, freeList,
        ih fun x hx => h x (List.mem_cons_of_mem _ hx)]
      rfl

/-- **Freeing what was allocated restores every byte of the table.** -/
theorem freeList_allocChain {total n : ℕ} {fatBuf : FatBuf} {r : Chained}
    (h : allocChain total n 0 fatBuf = .ok r) : freeList r.fatBuf r.clusters = fatBuf := by
  rw [freeList_eq_setBack fun c hc => (allocChain_mem h hc).2.2.resolve_right fun hzero => ?_]
  · exact fatSetCluster_isArray.setBack_edited
      (allocChain_edited h (fun _ hc => hc) fun hne => absurd rfl hne)
  · have h2 := (allocChain_mem h hc).1
    omega

/-! ## The volume -/

/-- From `d` to `d'` nothing in front of the root directory and no slot of a directory has
changed, but for a slot of one directory that was free and is marked deleted. -/
structure Undone (m : Mount) (d d' : Disk) (dirc : ℕ) (loc : Loc) : Prop where
  table : ∀ lba < m.rootStart, d' lba = d lba
  free : Named m d dirc freeVerdict loc
  deleted : (entryAt d' loc).isDeleted = true
  slots : ∀ dirc', Reach m d dirc' → ∀ n,
    slotAt m (fatAt m d') dirc' n = slotAt m (fatAt m d) dirc' n
  others : ∀ dirc' n loc', Reach m d dirc' → slotAt m (fatAt m d) dirc' n = some loc' →
    loc' ≠ loc → entryAt d' loc' = entryAt d loc'

/-- What is behind the end of a directory reads as the end. -/
def Ended (m : Mount) (d : Disk) (dirc : ℕ) : Prop :=
  ∀ k n loc loc', k < n → slotAt m (fatAt m d) dirc k = some loc →
    slotAt m (fatAt m d) dirc n = some loc' → (entryAt d loc).isEnd = true →
      (entryAt d loc').isEnd = true

/-- A call stored its new table and its record, and edited nothing else that is in use. -/
structure Placed (m : Mount) (d d' : Disk) (dirc n : ℕ) (loc : Loc) (e : RawDirEntry)
    (a : Chained) : Prop where
  free : FirstTake (slotAt m (fatAt m d) dirc) d freeVerdict n loc
  alloc : ∃ fatBuf k, tableAlloc m d fatBuf k = .ok a
  low : ∀ lba < m.rootStart, d' lba = applyWrites (fatWrites m a.fatBuf) d lba
  created : Created m d d' loc e a

section Volume

variable {m : Mount} {d d' : Disk} {dirc n : ℕ} {loc : Loc} {e : RawDirEntry} {a : Chained}

/-- The sectors in front of the root directory when a table is stored that the disk holds the
like of. -/
theorem fatWrites_twice {b b' fatBuf : FatBuf} (hcopies : Copies m d)
    (hsame : ∀ o < m.fatSecs * 512, b' o = loaded m d fatBuf o) (lba : ℕ) :
    applyWrites (fatWrites m b') (applyWrites (fatWrites m b) d) lba = d lba := by
  by_cases hcopy : ∃ f s, f < m.bpb.fatCount.toNat ∧ s < m.fatSecs ∧
      lba = m.fatStart + f * m.bpb.sectorsPerFat.toNat + s
  · obtain ⟨f, s, hf, hs, rfl⟩ := hcopy
    rw [applyWrites_fatWrites hf hs, hcopies f hf s hs, fatSector_of_loaded hsame hs]
  · have hother (fatBuf : FatBuf) (w : ℕ × Sector) (hw : w ∈ fatWrites m fatBuf) : w.1 ≠ lba := by
      obtain ⟨f, s, hf, hs, rfl⟩ := mem_fatWrites.mp hw
      exact fun heq => hcopy ⟨f, s, hf, hs, heq.symm⟩
    rw [applyWrites_of_forall_ne (hother b'), applyWrites_of_forall_ne (hother b)]

section Placed

variable (hs : Sound m d) (hreach : Reach m d dirc) (h : Placed m d d' dirc n loc e a)
include hs hreach h

omit hs hreach in
theorem Placed.disjoint {dirc' : ℕ} {ld : List ℕ} (hld : ChainOf m d dirc' ld) :
    List.Disjoint ld a.clusters := by
  obtain ⟨fatBuf, k, halloc⟩ := h.alloc
  exact (unused_of_tableAlloc halloc).disjoint_chain hld

theorem Placed.walks : Walks m d' dirc :=
  ⟨hs.valid, (h.created.edit.dirKept (hs.dirOk hreach) fun _ hld => h.disjoint hld).dirOk⟩

omit hreach in
theorem Placed.slotAt_eq {dirc' : ℕ} (hreach' : Reach m d dirc') (k : ℕ) :
    slotAt m (fatAt m d') dirc' k = slotAt m (fatAt m d) dirc' k :=
  h.created.edit.slotAt_eq (hs.dirOk hreach') (fun _ hld => h.disjoint hld) k

/-- The chain of the directory is the one it had. -/
theorem Placed.disjoint_after {ld : List ℕ} (hld : ChainOf m d' dirc ld) :
    List.Disjoint ld a.clusters := by
  rcases hs.dir_chain hreach with rfl | ⟨l, hl⟩
  · have := hld.ok_head.1
    omega
  · have hl' := h.created.edit.chainOf hl (h.disjoint hl)
    rw [hld.unique (not_dataCluster_of_endMark m) hl']
    exact h.disjoint hl

/-- The record is what a search finds that takes it and nothing in front of it. -/
theorem Placed.named {verdict : RawDirEntry → Verdict} (htake : verdict e = .take)
    (hskip : ∀ k < n, ∀ loc', slotAt m (fatAt m d) dirc k = some loc' →
      verdict (entryAt d loc') = .skip) : Named m d' dirc verdict loc := by
  refine named_of_put h.free.1 (h.slotAt_eq hs hreach) (fun k loc' hloc' hne => ?_)
    (h.created.entry ▸ htake) fun k hk loc' hloc' => ⟨?_, hskip k hk loc' hloc'⟩
  · exact h.created.edit.entryAt_eq hs.valid (hs.dirOk hreach)
      (fun _ hld => h.disjoint hld) hloc' hne
  · rintro rfl
    exact absurd (hs.slotAt_inj hreach hreach hloc' h.free.1).2 hk.ne

/-- **The removal of the record restores the volume.** -/
theorem Placed.undone (hcopies : Copies m d) (howns : Owns m d' e a.clusters)
    (fatBuf : FatBuf) :
    Undone m d (applyWrites (removeWrites m d' fatBuf a.clusters loc) d') dirc loc := by
  have hv := hs.valid
  have hloc : slotAt m (fatAt m d') dirc n = some loc :=
    (h.slotAt_eq hs hreach n).trans h.free.1
  have hwalk := h.walks hs hreach
  have hremoved := removed_of_removeWrites hwalk hloc (h.created.entry ▸ howns) fatBuf
  have hedit := h.created.edit.trans hremoved.edit
  have hdis (dirc' : ℕ) (ld : List ℕ) (hld : ChainOf m d dirc' ld) :
      List.Disjoint ld (a.clusters ++ a.clusters) := by
    rw [List.disjoint_append_right]
    exact ⟨h.disjoint hld, h.disjoint hld⟩
  obtain ⟨fatBuf₀, k, halloc⟩ := h.alloc
  refine ⟨fun lba hlba => ?_, ⟨n, h.free⟩, ?_, fun dirc' hreach' j => ?_,
    fun dirc' j loc' hreach' hloc' hne => ?_⟩
  · have hroot := rootStart_le_slot hwalk hloc
    have hslot : applyWrites (removeWrites m d' fatBuf a.clusters loc) d' lba =
        applyWrites (fatWrites m (removedBuf m d' fatBuf a.clusters)) d' lba := by
      rw [removeWrites, applyWrites_append]
      exact applyWrites_slotWrite_of_lt hroot hlba
    have hlow := applyWrites_congr (fatWrites m (removedBuf m d' fatBuf a.clusters))
      (h.low lba hlba)
    have hrestored (o : ℕ) (ho : o < m.fatSecs * 512) :
        removedBuf m d' fatBuf a.clusters o = loaded m d fatBuf₀ o := by
      have hstored : loaded m d' fatBuf o = a.fatBuf o := by
        have hspf := m.fatSecs_le_sectorsPerFat
        have hfat := hv.fatCopy_lt hv.fatCount_pos (show o / 512 < _ by omega)
        rw [Nat.zero_mul, Nat.add_zero] at hfat
        rw [loaded, if_pos ho, fatImage, h.low _ hfat]
        exact fatImage_applyWrites_fatWrites hv ho
      rw [removedBuf, freeList_congr _ hstored, freeList_allocChain halloc]
    rw [hslot, hlow]
    exact fatWrites_twice hcopies hrestored lba
  · rw [hremoved.entry, RawDirEntry.isDeleted_markDeleted]
  · exact hedit.slotAt_eq (hs.dirOk hreach') (hdis dirc') j
  · refine hedit.entryAt_eq hv (hs.dirOk hreach') (hdis dirc') hloc' fun heq => ?_
    exact hne (or_self_iff.mp heq)

end Placed

/-- The name that was free in front of the end of the directory is free again. -/
theorem Undone.nameFree (h : Undone m d d' dirc loc) (hreach : Reach m d dirc)
    (hended : Ended m d dirc) {name : CString} (hnew : NameFree m d dirc name) :
    NameFree m d' dirc name := by
  intro k loc' hlive
  have hne : loc' ≠ loc := by
    rintro rfl
    have hlive' : (entryAt d' loc').live = true := hlive.2.1
    rw [RawDirEntry.live, h.deleted] at hlive'
    simp at hlive'
  have hslot : slotAt m (fatAt m d) dirc k = some loc' := (h.slots dirc hreach k).symm.trans hlive.1
  have hentry := h.others dirc k loc' hreach hslot hne
  have hlive' : (entryAt d loc').live = true := hentry ▸ hlive.2.1
  rw [hentry]
  refine hnew k loc' ⟨hslot, hlive', fun j hj x hx hend => ?_⟩
  by_cases hx' : x = loc
  · -- the slot ended the directory before, so what is behind it is not live
    have hbehind := hended j k x loc' hj hx hslot hend
    rw [RawDirEntry.isEnd_of_live hlive'] at hbehind
    exact absurd hbehind (by decide)
  · refine hlive.2.2 j hj x ((h.slots dirc hreach j).trans hx) ?_
    have hsame := h.others dirc j x hreach hx hx'
    change (entryAt d' x).isEnd = true
    rw [hsame]
    exact hend

end Volume

/-! ## Placing a record -/

/-- The sectors of clusters lie behind the table. -/
theorem applyWrites_clusters_low {m : Mount} (hv : m.Valid) {C : List ℕ}
    (hclusters : ∀ c ∈ C, 2 ≤ c ∧ c < 6146) {writes : List (ℕ × Sector)}
    (hwrites : ∀ w ∈ writes, ∃ c ∈ C, ∃ k < m.spc, w.1 = m.clusterLba c k) (d : Disk) {lba : ℕ}
    (hlba : lba < m.rootStart) : applyWrites writes d lba = d lba := by
  refine applyWrites_of_forall_ne fun w hw heq => ?_
  obtain ⟨c, hc, k, hk, hcluster⟩ := hwrites w hw
  obtain ⟨h2, hlt⟩ := hclusters c hc
  have := hv.dataStart_le_clusterLba h2 (by omega) hk
  have := hv.dataStart_eq
  omega

theorem storeWrites_low {m : Mount} (hv : m.Valid) (data : ℕ → UInt8) (size : ℕ) {a : Chained}
    (hclusters : ∀ c ∈ a.clusters, 2 ≤ c ∧ c < 6146) (d : Disk) {lba : ℕ}
    (hlba : lba < m.rootStart) :
    applyWrites (storeWrites m data size a) d lba = applyWrites (fatWrites m a.fatBuf) d lba := by
  rw [storeWrites, applyWrites_append]
  refine applyWrites_congr _ (applyWrites_clusters_low hv hclusters (fun w hw => ?_) d hlba)
  obtain ⟨j, c, k, hj, hk, -, rfl⟩ := mem_fileWrites.mp hw
  exact ⟨c, List.mem_of_getElem? hj, k, hk, rfl⟩

theorem mkdirWrites_low {m : Mount} (hv : m.Valid) (parent : ℕ) {c : ℕ} (h2 : 2 ≤ c)
    (hlt : c < 6146) (fatBuf : FatBuf) (d : Disk) {lba : ℕ} (hlba : lba < m.rootStart) :
    applyWrites (mkdirWrites m parent c fatBuf) d lba = applyWrites (fatWrites m fatBuf) d lba := by
  rw [mkdirWrites, applyWrites_append]
  refine applyWrites_clusters_low (C := [c]) hv (fun x hx => ?_) (fun w hw => ?_) _ hlba
  · rw [List.mem_singleton.mp hx]
    exact ⟨h2, hlt⟩
  · rw [List.mem_singleton.mp hw]
    exact ⟨c, List.mem_singleton_self c, 0, hv.spc_pos, rfl⟩

/-- A creation that stores its table and then its record places the record. -/
theorem placed_of_created {m : Mount} {d : Disk} {dirc n k : ℕ} (hwalk : Walks m d dirc)
    {fatBuf : FatBuf} {a : Chained} (halloc : tableAlloc m d fatBuf k = .ok a) {loc : Loc}
    (hfree : FirstTake (slotAt m (fatAt m d) dirc) d freeVerdict n loc)
    {writes : List (ℕ × Sector)} (hlow : ∀ lba < m.rootStart,
      applyWrites writes d lba = applyWrites (fatWrites m a.fatBuf) d lba) {e : RawDirEntry}
    (hcreated : Created m d (applyWrites (writes ++ [slotWrite d loc e]) d) loc e a) :
    Placed m d (applyWrites (writes ++ [slotWrite d loc e]) d) dirc n loc e a := by
  refine ⟨hfree, ⟨fatBuf, k, halloc⟩, fun lba hlba => ?_, hcreated⟩
  rw [applyWrites_append, applyWrites_slotWrite_of_lt (rootStart_le_slot hwalk hfree.1) hlba]
  exact hlow lba hlba

section Calls

variable {st : Driver} {d : Disk} (hs : Sound st.mount d)
  (hcwd : Reach st.mount d st.currentDirCluster)
include hs hcwd

/-- A store places the record of the file over the chain that it allocates. -/
theorem storeFile_placed {name : CString} {data : ℕ → UInt8} {size : ℕ} (hsize : size < 2 ^ 32)
    (hroom : clustersFor st.mount size ≤ (freeClusters st.mount (fatAt st.mount d)).card)
    {fuel : ℕ} {taken : List ℕ} {st' : Driver} {writes : List (ℕ × Sector)}
    (h : (storeFile fuel st name data size).Returns d ((0, taken), st') writes) :
    ∃ n loc firstCluster a, (∃ fatBuf, st' = st.keepBuf .write fatBuf) ∧
      Placed st.mount d (applyWrites writes d) st.currentDirCluster n loc
        (newEntry name 0x00 firstCluster size) a ∧
      Owns st.mount (applyWrites writes d) (newEntry name 0x00 firstCluster size) a.clusters := by
  have hv := hs.valid
  obtain ⟨l, fatBuf', halloc, hspec, -, hst, hcases⟩ :=
    storeFile_outcome_of_room hs hcwd hsize hroom h
  rcases hcases with ⟨-, hfailed, -⟩ | ⟨loc, ⟨n, hfree⟩, -, rfl⟩
  · exact absurd hfailed (by decide)
  · have hwalk := hs.walks hcwd
    have hplaced := placed_of_created hwalk halloc hfree
      (fun lba => storeWrites_low hv data size (clusters_of_tableAlloc halloc) d)
      (created_of_storeWrites hwalk halloc hfree.1 data size
        (newEntry name 0x00 (l.headD 0) size))
    exact ⟨n, loc, _, _, ⟨fatBuf', hst⟩, hplaced,
      hspec.owns_newEntry hplaced.created.table name size⟩

/-- A write of a new name deletes nothing, and stores the file. -/
theorem fatWrite_placed {name : CString}
    (hnew : NameFree st.mount d st.currentDirCluster name) {data : ℕ → UInt8} {size : ℕ}
    (hsize : size < 2 ^ 32)
    (hroom : clustersFor st.mount size ≤ (freeClusters st.mount (fatAt st.mount d)).card)
    {fuel : ℕ} {st' : Driver} {writes : List (ℕ × Sector)}
    (h : (fatWrite fuel st name data size).Returns d (0, st') writes) :
    ∃ n loc firstCluster a, (st'.mount = st.mount ∧ st'.currentDirCluster = st.currentDirCluster) ∧
      Placed st.mount d (applyWrites writes d) st.currentDirCluster n loc
        (newEntry name 0x00 firstCluster size) a ∧
      Owns st.mount (applyWrites writes d) (newEntry name 0x00 firstCluster size) a.clusters := by
  obtain ⟨code, fatBuf, taken, first, second, hdelete, hstore, rfl, -⟩ := fatWrite_split hs hcwd h
  obtain ⟨-, ⟨-, -, rfl⟩ | ⟨loc, n, l, hnamed, hlive, -⟩⟩ :=
    removeEntry_outcome hs hcwd (fun _ hnamed => hnamed.file.1) hdelete
  · have hs₁ : Sound (st.keepBuf .delete fatBuf).mount d := hs
    obtain ⟨n, loc, firstCluster, a, ⟨fatBuf', rfl⟩, hplaced, howns⟩ :=
      storeFile_placed hs₁ hcwd hsize hroom hstore
    exact ⟨n, loc, firstCluster, a, ⟨rfl, rfl⟩, hplaced, howns⟩
  · have hmatches := hnamed.file.2.2
    rw [hnew n loc hlive] at hmatches
    exact absurd hmatches (by decide)

/-- Making a directory places its record over one cluster. -/
theorem fatMkdir_placed {name : CString}
    (hroom : 1 ≤ (freeClusters st.mount (fatAt st.mount d)).card) {fuel : ℕ} {st' : Driver}
    {writes : List (ℕ × Sector)} (h : (fatMkdir fuel st name).Returns d (0, st') writes) :
    ∃ n loc c a, (st'.mount = st.mount ∧ st'.currentDirCluster = st.currentDirCluster) ∧
      Placed st.mount d (applyWrites writes d) st.currentDirCluster n loc
        (newEntry name 0x10 c 0) a ∧
      Owns st.mount (applyWrites writes d) (newEntry name 0x10 c 0) a.clusters := by
  have hv := hs.valid
  obtain ⟨taken, h⟩ := fatMkdir_returns_iff.mp h
  obtain ⟨c, fatBuf', halloc, hspec, -, ⟨fatBuf, rfl⟩, hcases⟩ :=
    fatMkdirTaken_outcome_of_room hs hcwd hroom h
  rcases hcases with ⟨-, hfailed, -⟩ | ⟨loc, ⟨n, hfree⟩, -, rfl⟩
  · exact absurd (show (0 : ℤ) = -1 from hfailed) (by decide)
  · obtain ⟨h2, hlt⟩ := clusters_of_tableAlloc halloc c (List.mem_singleton_self c)
    have hwalk := hs.walks hcwd
    have hplaced := placed_of_created hwalk halloc hfree
      (fun lba => mkdirWrites_low hv st.currentDirCluster h2 hlt fatBuf' d)
      (created_of_mkdirWrites hwalk halloc rfl hfree.1 st.currentDirCluster
        (newEntry name 0x10 c 0))
    refine ⟨n, loc, c, _, ⟨rfl, rfl⟩, hplaced, Or.inr ?_⟩
    rw [firstCluster_newEntry name 0x10 (show c < 2 ^ 16 by omega) 0]
    have hchain := hspec.chain (List.cons_ne_nil c [])
    exact hchain.congr fun x hx => hplaced.created.table x (hchain.ok_of_mem hx).2.2

end Calls

/-! ## The calls -/

/-- A name was put into the current directory and taken out again: the volume is as before, and
where the directory was ended the name is found no more. -/
def TakenBack (st : Driver) (d : Disk) (name : CString) (st' : Driver) (d' : Disk) : Prop :=
  ∃ loc, Undone st.mount d d' st.currentDirCluster loc ∧
    (Ended st.mount d st.currentDirCluster →
      NameFree st.mount d' st.currentDirCluster name ∧
        ∀ fuel, loopBound < fuel → ∀ buf bufSize, ∃ st'',
          (fatRead fuel st' name buf bufSize).Returns d' ((-1, buf), st'') [])

section Calls

variable {st : Driver} {d : Disk} (hs : Sound st.mount d)
  (hcwd : Reach st.mount d st.currentDirCluster) {name : CString}
  (hnew : NameFree st.mount d st.currentDirCluster name)
include hs hcwd hnew

theorem Undone.takenBack {d' : Disk} {loc : Loc}
    (h : Undone st.mount d d' st.currentDirCluster loc) {st' : Driver}
    (hmount : st'.mount = st.mount) (hcluster : st'.currentDirCluster = st.currentDirCluster) :
    TakenBack st d name st' d' := by
  refine ⟨loc, h, fun hended => ?_⟩
  have hfree := h.nameFree hcwd hended hnew
  have hkept : DirKept st.mount (fatAt st.mount d) (fatAt st.mount d') st.currentDirCluster := by
    refine dirKept_of_disjoint (l := []) (hs.dirOk hcwd)
      (fun _ _ => List.disjoint_nil_right _) fun c hc _ => ?_
    exact fatAt_congr hs.valid (fun lba _ hlt => h.table lba hlt) hc.2.2
  refine ⟨hfree, fun fuel hfuel buf bufSize =>
    ⟨st'.keepBuf .read (loaded st'.mount d' (st'.fatBuf .read)), ?_⟩⟩
  refine fatRead_not_found (hmount ▸ hs.valid.usable) ?_ hfuel buf bufSize fun n loc' hfirst => ?_
  · rw [hmount, hcluster]
    exact hkept.dirOk.finite
  · rw [hmount, hcluster] at hfirst
    have hnamed : Named st.mount d' st.currentDirCluster (fileVerdict name) loc' := ⟨n, hfirst⟩
    obtain ⟨⟨k, hlive⟩, -, hmatches⟩ := hnamed.file
    rw [hfree k loc' hlive] at hmatches
    exact absurd hmatches (by decide)

/-- The removal of a record that was placed takes the name back. -/
theorem Placed.takenBack (hcopies : Copies st.mount d) {d' : Disk} {n : ℕ} {loc : Loc}
    {e : RawDirEntry} {a : Chained} (h : Placed st.mount d d' st.currentDirCluster n loc e a)
    (howns : Owns st.mount d' e a.clusters) {verdict : RawDirEntry → Verdict}
    (hnamed : Named st.mount d' st.currentDirCluster verdict loc) {st' st'' : Driver}
    (hmount : st'.mount = st.mount) (hcluster : st'.currentDirCluster = st.currentDirCluster)
    {owner : Owner} {fuel : ℕ} {writes : List (ℕ × Sector)}
    (hremove : (removeEntry owner verdict fuel st').Returns d' (0, st'') writes) :
    TakenBack st d name st'' (applyWrites writes d') := by
  obtain ⟨big, hmax, hreturns⟩ :=
    returns_of_more_fuel (fun _ _ hle => removeEntry_extends hle st' owner verdict) hremove
  have hwalk : Walks st'.mount d' st'.currentDirCluster := by
    rw [hmount, hcluster]
    exact h.walks hs hcwd
  have howns' : Owns st.mount d' (entryAt d' loc) a.clusters := h.created.entry ▸ howns
  have hdis (ld : List ℕ) (hld : ChainOf st.mount d' st.currentDirCluster ld) :
      List.Disjoint ld a.clusters := h.disjoint_after hs hcwd hld
  have hremoved : (removeEntry owner verdict big st').Returns d' _ _ :=
    removeEntry_returns_some hwalk hmax (hmount ▸ hcluster ▸ hnamed) (hmount ▸ howns')
      (hmount ▸ hcluster ▸ hdis)
  obtain ⟨heq, rfl⟩ := hreturns.unique hremoved
  injection heq with _ hst
  subst hst
  rw [hmount]
  exact (h.undone hs hcwd hcopies howns _).takenBack hs hcwd hnew hmount hcluster

omit hs hcwd in
/-- The records in front of the first free slot are passed by a search for the name. -/
theorem NameFree.skips_before_free (hflags : ∀ n loc,
      slotAt st.mount (fatAt st.mount d) st.currentDirCluster n = some loc →
        ¬ ((entryAt d loc).isLabel = true ∧ (entryAt d loc).isDir = true)) {n : ℕ} {loc : Loc}
    (hfree : FirstTake (slotAt st.mount (fatAt st.mount d) st.currentDirCluster) d freeVerdict
      n loc) {k : ℕ} (hk : k < n) {loc' : Loc}
    (hloc' : slotAt st.mount (fatAt st.mount d) st.currentDirCluster k = some loc') :
    fileVerdict name (entryAt d loc') = .skip ∧ dirVerdict name (entryAt d loc') = .skip :=
  hnew.skips hloc' (hflags k loc' hloc') fun _ hj _ hx => (hfree.before_free (by omega) hx).1

end Calls

/-- **Delete undoes write, and rmdir undoes mkdir.** -/
theorem fatDelete_fatWrite {st : Driver} {d : Disk} (hs : Sound st.mount d)
    (hcopies : Copies st.mount d) (hcwd : Reach st.mount d st.currentDirCluster)
    (hflags : ∀ n loc, slotAt st.mount (fatAt st.mount d) st.currentDirCluster n = some loc →
      ¬ ((entryAt d loc).isLabel = true ∧ (entryAt d loc).isDir = true)) {name : CString}
    (hname : Valid83 name) (hnew : NameFree st.mount d st.currentDirCluster name) :
    (∀ data size, size < 2 ^ 32 →
      clustersFor st.mount size ≤ (freeClusters st.mount (fatAt st.mount d)).card →
      ∀ fuel st₁ writes₁ fuel' st₂ writes₂,
        (fatWrite fuel st name data size).Returns d (0, st₁) writes₁ →
        (fatDelete fuel' st₁ name).Returns (applyWrites writes₁ d) (0, st₂) writes₂ →
        TakenBack st d name st₂ (applyWrites writes₂ (applyWrites writes₁ d))) ∧
    (1 ≤ (freeClusters st.mount (fatAt st.mount d)).card →
      ∀ fuel st₁ writes₁ fuel' st₂ writes₂,
        (fatMkdir fuel st name).Returns d (0, st₁) writes₁ →
        (fatRmdir fuel' st₁ name).Returns (applyWrites writes₁ d) (0, st₂) writes₂ →
        TakenBack st d name st₂ (applyWrites writes₂ (applyWrites writes₁ d))) := by
  obtain ⟨hstorable, hfits⟩ := hname.fits
  constructor
  · intro data size hsize hroom fuel st₁ writes₁ fuel' st₂ writes₂ hwrite hdelete
    obtain ⟨n, loc, firstCluster, a, ⟨hmount, hcluster⟩, hplaced, howns⟩ :=
      fatWrite_placed hs hcwd hnew hsize hroom hwrite
    have hnamed := hplaced.named hs hcwd ((fileVerdict_newEntry hstorable _ _).mpr hfits)
      fun k hk loc' hloc' => (hnew.skips_before_free hflags hplaced.free hk hloc').1
    exact hplaced.takenBack hs hcwd hnew hcopies howns hnamed hmount hcluster hdelete
  · intro hroom fuel st₁ writes₁ fuel' st₂ writes₂ hmkdir hrmdir
    obtain ⟨n, loc, c, a, ⟨hmount, hcluster⟩, hplaced, howns⟩ :=
      fatMkdir_placed hs hcwd hroom hmkdir
    have hnamed := hplaced.named hs hcwd ((dirVerdict_newEntry hstorable c).mpr hfits)
      fun k hk loc' hloc' => (hnew.skips_before_free hflags hplaced.free hk hloc').2
    exact hplaced.takenBack hs hcwd hnew hcopies howns hnamed hmount hcluster hrmdir

/-- Two calls that return 0 one after the other. -/
theorem returns_both {p : FatProg (ℤ × Driver)} {q : Driver → FatProg (ℤ × Driver)} {d : Disk}
    (h : ((p >>= fun r => q r.2 >>= fun s => .ret ((r.1, s.1), s.2)).exec d).1.map Prod.fst =
      .ok (0, 0)) :
    ∃ st₁ writes₁ st₂ writes₂, p.Returns d (0, st₁) writes₁ ∧
      (q st₁).Returns (applyWrites writes₁ d) (0, st₂) writes₂ := by
  obtain ⟨state, hreturns⟩ := returns_of_exec h
  obtain ⟨⟨r₁, st₁⟩, writes₁, rest, hfirst, hrest, -⟩ := returns_bind_iff.mp hreturns
  obtain ⟨⟨r₂, st₂⟩, writes₂, last, hsecond, hlast, -⟩ := returns_bind_iff.mp hrest
  injection hlast with hresult
  simp only [Except.ok.injEq, Prod.mk.injEq] at hresult
  obtain ⟨⟨rfl, rfl⟩, -⟩ := hresult
  exact ⟨st₁, writes₁, st₂, writes₂, hfirst, hsecond⟩

/-- On a blank volume `A` is written and deleted, and made and removed. -/
theorem fatDelete_fatWrite_blank :
    (∃ st₁ writes₁ st₂ writes₂,
      (fatWrite 4 (freshDriver smallMount) nameA (fun _ => 7) 1).Returns blank (0, st₁) writes₁ ∧
      (fatDelete 4 st₁ nameA).Returns (applyWrites writes₁ blank) (0, st₂) writes₂ ∧
      TakenBack (freshDriver smallMount) blank nameA st₂
        (applyWrites writes₂ (applyWrites writes₁ blank))) ∧
    ∃ st₁ writes₁ st₂ writes₂,
      (fatMkdir 4 (freshDriver smallMount) nameA).Returns blank (0, st₁) writes₁ ∧
      (fatRmdir 4 st₁ nameA).Returns (applyWrites writes₁ blank) (0, st₂) writes₂ ∧
      TakenBack (freshDriver smallMount) blank nameA st₂
        (applyWrites writes₂ (applyWrites writes₁ blank)) := by
  have hready := ready_blank valid_smallMount
  obtain ⟨hwrite, hmkdir⟩ := fatDelete_fatWrite hready.sound hready.wellFormed.copies hready.cwd
    (fun n loc => hready.wellFormed.noLabelDir 0 n loc hready.cwd) valid83_nameA
    (nameFree_blank nameA)
  have hroom : 1 ≤ (freeClusters smallMount (fatAt smallMount blank)).card :=
    room_of_free (c := 2) (by decide) (fatAt_blank _ _)
  constructor
  · obtain ⟨st₁, writes₁, st₂, writes₂, hfirst, hsecond⟩ :=
      returns_both (p := fatWrite 4 (freshDriver smallMount) nameA (fun _ => 7) 1)
        (q := fun st => fatDelete 4 st nameA) (d := blank) (by decide +kernel)
    exact ⟨st₁, writes₁, st₂, writes₂, hfirst, hsecond,
      hwrite _ 1 (by decide) hroom _ _ _ _ _ _ hfirst hsecond⟩
  · obtain ⟨st₁, writes₁, st₂, writes₂, hfirst, hsecond⟩ :=
      returns_both (p := fatMkdir 4 (freshDriver smallMount) nameA)
        (q := fun st => fatRmdir 4 st nameA) (d := blank) (by decide +kernel)
    exact ⟨st₁, writes₁, st₂, writes₂, hfirst, hsecond,
      hmkdir hroom _ _ _ _ _ _ hfirst hsecond⟩

end MasterOS.Fat
