/-
# Writing and reading back

The reader of a file finds the first record its name takes and follows the record's chain,
which holds the file's bytes. A write that succeeds leaves just such a record and such a
chain, so what was written under a name is what is read under it.
-/

import MasterOS.Fat.Frame
import MasterOS.Fat.Reading

namespace MasterOS.Fat

open MasterOS.Device MasterOS.Device.Prog MasterOS.Math

/-- The clusters of a list hold the sectors of a file, the first of them being cluster
`i` of the file. -/
def Holds (m : Mount) (d : Disk) (data : ℕ → UInt8) (size i : ℕ) (l : List ℕ) : Prop :=
  ∀ j c k, l[j]? = some c → k < m.spc → (i + j) * m.spc + k < sectorsFor size →
    d (m.clusterLba c k) = fileSector data size ((i + j) * m.spc + k)

/-- After the writes of a store the clusters hold the file. -/
theorem holds_storeWrites {m : Mount} (hv : m.Valid) (data : ℕ → UInt8) (size : ℕ) {a : Chained}
    (hnodup : a.clusters.Nodup) (hclusters : ∀ c ∈ a.clusters, 2 ≤ c ∧ c < 6146) (d : Disk) :
    Holds m (applyWrites (storeWrites m data size a) d) data size 0 a.clusters := by
  intro j c k hj hk hlt
  obtain ⟨h2, hclt⟩ := hclusters c (List.mem_of_getElem? hj)
  have hlow := hv.dataStart_le_clusterLba h2 hclt hk
  have hdata := hv.dataStart_eq
  rw [storeWrites, applyWrites_append, applyWrites_fatWrites_of_outside hv (Or.inr (by omega))]
  refine applyWrites_of_mem (mem_fileWrites.mpr ⟨j, c, k, hj, hk, hlt, rfl⟩) fun w hw haddr => ?_
  obtain ⟨j', c', k', hj', hk', -, rfl⟩ := mem_fileWrites.mp hw
  obtain ⟨h2', hclt'⟩ := hclusters c' (List.mem_of_getElem? hj')
  obtain ⟨rfl, rfl⟩ := hv.clusterLba_inj h2' hclt' hk' h2 hclt hk haddr
  -- a cluster has one place in the chain
  have hjj : j' = j := by
    obtain ⟨hlt', heq'⟩ := List.getElem?_eq_some_iff.mp hj'
    obtain ⟨hlt, heq⟩ := List.getElem?_eq_some_iff.mp hj
    exact (List.Nodup.getElem_inj_iff hnodup).mp (heq'.trans heq.symm)
  rw [hjj]

/-- A disk that agrees on the clusters' sectors holds the same. -/
theorem Holds.congr {m : Mount} {d d' : Disk} {data : ℕ → UInt8} {size i : ℕ} {l : List ℕ}
    (h : Holds m d data size i l)
    (same : ∀ c ∈ l, ∀ k < m.spc, d' (m.clusterLba c k) = d (m.clusterLba c k)) :
    Holds m d' data size i l := by
  intro j c k hj hk hlt
  rw [same c (List.mem_of_getElem? hj) k hk]
  exact h j c k hj hk hlt

/-- A record with the stored form of a name matches the name exactly when the name fits. -/
theorem matches_stored_iff {name : CString} (hname : Storable name) {e : RawDirEntry}
    (hbase : e.name = (split83 name).1) (hext : e.ext = (split83 name).2) :
    e.matches name = true ↔ Fits83 name := by
  rw [RawDirEntry.matches_iff, hbase, hext]
  exact matches_split83_iff hname.noSpace

/-- The record of a file is taken by the name it is stored under exactly when that fits. -/
theorem fileVerdict_newEntry {name : CString} (hname : Storable name) (firstCluster size : ℕ) :
    fileVerdict name (newEntry name 0x00 firstCluster size) = .take ↔ Fits83 name := by
  have hdeleted : (newEntry name 0x00 firstCluster size).isDeleted = false := by
    simpa [RawDirEntry.isDeleted, newEntry] using hname.split83_fst_zero_ne
  have hlabel : (newEntry name 0x00 firstCluster size).isLabel = false := by
    simp [RawDirEntry.isLabel, newEntry]
  have hdir : (newEntry name 0x00 firstCluster size).isDir = false := by
    simp [RawDirEntry.isDir, newEntry]
  have hlive : (newEntry name 0x00 firstCluster size).live = true := by
    simp [RawDirEntry.live, (newEntry_flags name 0x00 firstCluster size).1, hdeleted, hlabel, hdir]
  rw [fileVerdict_eq_take_iff, matches_stored_iff hname rfl rfl]
  exact ⟨fun h => h.2.2, fun h => ⟨hlive, hdir, h⟩⟩

theorem fileVerdict_ne_stop {name : CString} {e : RawDirEntry} (h : e.isEnd = false) :
    fileVerdict name e ≠ .stop := by
  unfold fileVerdict
  rw [h, if_neg (by decide)]
  split_ifs <;> decide

/-- After the delete that a write starts with, no slot before the first free one holds a
file of the name. -/
theorem skip_before_free {st st' : Driver} {d : Disk} (hs : Sound st.mount d)
    (hcwd : Reach st.mount d st.currentDirCluster) {name : CString} {fuel : ℕ} {r : ℤ}
    {writes : List (ℕ × Sector)} (h : (fatDelete fuel st name).Returns d (r, st') writes) {n : ℕ}
    {loc : Loc} (hfree : FirstTake (slotAt st.mount (fatAt st.mount (applyWrites writes d))
      st.currentDirCluster) (applyWrites writes d) freeVerdict n loc) {k : ℕ} (hk : k < n)
    {loc' : Loc} (hloc' : slotAt st.mount (fatAt st.mount (applyWrites writes d))
      st.currentDirCluster k = some loc') :
    fileVerdict name (entryAt (applyWrites writes d) loc') = .skip := by
  obtain ⟨-, ⟨hnone, -, rfl⟩ | ⟨loc₀, n₁, l, hnamed, hlive, howns, -, rfl⟩⟩ :=
    removeEntry_outcome hs hcwd (fun loc hnamed => hnamed.file.1) h
  · -- the name found nothing, and nothing ends the directory before the free slot
    rw [applyWrites_nil] at *
    have hgo (j : ℕ) (hj : j < n) (x : Loc)
        (hx : slotAt st.mount (fatAt st.mount d) st.currentDirCluster j = some x) :
        fileVerdict name (entryAt d x) ≠ .stop :=
      fileVerdict_ne_stop (hfree.before_free hj hx).1
    cases hverdict : fileVerdict name (entryAt d loc') with
    | skip => rfl
    | stop => exact absurd hverdict (hgo k hk loc' hloc')
    | take =>
        obtain ⟨n', x, -, hfirst⟩ :=
          exists_firstTake hloc' hverdict fun j hj => hgo j (lt_trans hj hk)
        exact absurd ⟨n', hfirst⟩ (hnone x)
  · -- the slot of the file that went is free, so the first free one is not behind it
    obtain ⟨n₀, htake⟩ := hnamed
    have hremoved := removed_of_removeWrites (hs.walks hcwd) htake.1 howns (st.fatBuf .delete)
    have hslot := hremoved.edit.slotAt_eq (hs.dirOk hcwd)
      fun ld hld => hs.dir_disjoint_entry hcwd hld hlive howns
    have hentry {j : ℕ} {x : Loc}
        (hx : slotAt st.mount (fatAt st.mount d) st.currentDirCluster j = some x)
        (hne : x ≠ loc₀) :=
      hremoved.edit.entryAt_eq hs.valid (hs.dirOk hcwd)
        (fun ld hld => hs.dir_disjoint_entry hcwd hld hlive howns) hx hne
    have hle : n ≤ n₀ := by
      by_contra hlt
      obtain ⟨-, hdeleted⟩ := hfree.before_free (show n₀ < n by omega) ((hslot n₀).trans htake.1)
      rw [hremoved.entry, RawDirEntry.isDeleted_markDeleted] at hdeleted
      exact absurd hdeleted (by decide)
    rw [hslot] at hloc'
    have hskip := htake.2.2 k (by omega) loc' hloc'
    have hne : loc' ≠ loc₀ := by
      rintro rfl
      rw [htake.2.1] at hskip
      exact absurd hskip (by decide)
    rw [hentry hloc' hne]
    exact hskip

/-- A search takes the record put into a slot when it takes that record and nothing before
the slot, and the rest of the directory is as it was. -/
theorem named_of_put {m : Mount} {d d' : Disk} {dirc n : ℕ} {loc : Loc}
    {verdict : RawDirEntry → Verdict} (hloc : slotAt m (fatAt m d) dirc n = some loc)
    (hslots : ∀ k, slotAt m (fatAt m d') dirc k = slotAt m (fatAt m d) dirc k)
    (hothers : ∀ k loc', slotAt m (fatAt m d) dirc k = some loc' → loc' ≠ loc →
      entryAt d' loc' = entryAt d loc') (htake : verdict (entryAt d' loc) = .take)
    (hskip : ∀ k < n, ∀ loc', slotAt m (fatAt m d) dirc k = some loc' →
      loc' ≠ loc ∧ verdict (entryAt d loc') = .skip) : Named m d' dirc verdict loc := by
  refine ⟨n, (hslots n).trans hloc, htake, fun k hk loc' hloc' => ?_⟩
  rw [hslots] at hloc'
  obtain ⟨hne, hskipped⟩ := hskip k hk loc' hloc'
  rw [hothers k loc' hloc' hne]
  exact hskipped

/-- What a store that succeeds leaves: its record in the first free slot, with clusters that
hold the file, and the rest of the directory as it was. -/
structure Stored (m : Mount) (dirc : ℕ) (d d' : Disk) (name : CString) (data : ℕ → UInt8)
    (size n : ℕ) (loc : Loc) (l : List ℕ) : Prop where
  dirOk : DirOk m (fatAt m d') dirc
  free : FirstTake (slotAt m (fatAt m d) dirc) d freeVerdict n loc
  slots : ∀ k, slotAt m (fatAt m d') dirc k = slotAt m (fatAt m d) dirc k
  others : ∀ k loc', slotAt m (fatAt m d) dirc k = some loc' → loc' ≠ loc →
    entryAt d' loc' = entryAt d loc'
  entry : entryAt d' loc = newEntry name 0x00 (l.headD 0) size
  owns : Owns m d' (entryAt d' loc) l
  length : l.length = clustersFor m size
  holds : Holds m d' data size 0 l

/-- The name finds the new record when it fits and finds nothing before it. -/
theorem Stored.named {m : Mount} {dirc : ℕ} {d d' : Disk} {name : CString} {data : ℕ → UInt8}
    {size n : ℕ} {loc : Loc} {l : List ℕ} (h : Stored m dirc d d' name data size n loc l)
    (hname : Storable name) (hfits : Fits83 name)
    (hskip : ∀ k < n, ∀ loc', slotAt m (fatAt m d) dirc k = some loc' →
      fileVerdict name (entryAt d loc') = .skip) : Named m d' dirc (fileVerdict name) loc := by
  have htake : fileVerdict name (entryAt d' loc) = .take := by
    rw [h.entry]
    exact (fileVerdict_newEntry hname _ _).mpr hfits
  refine named_of_put h.free.1 h.slots h.others htake
    fun k hk loc' hloc' => ⟨?_, hskip k hk loc' hloc'⟩
  rintro rfl
  have hfree := h.free.2.2 k hk loc' hloc'
  rw [h.free.2.1] at hfree
  exact absurd hfree (by decide)

/-- A store that succeeds, with the room it needs, stores the file. -/
theorem stored_of_returns {st st' : Driver} {d : Disk} (hs : Sound st.mount d)
    (hcwd : Reach st.mount d st.currentDirCluster) {name : CString} {data : ℕ → UInt8} {size : ℕ}
    (hsize : size < 2 ^ 32)
    (hroom : clustersFor st.mount size ≤ (freeClusters st.mount (fatAt st.mount d)).card)
    {fuel : ℕ} {taken : List ℕ} {writes : List (ℕ × Sector)}
    (h : (storeFile fuel st name data size).Returns d ((0, taken), st') writes) :
    ∃ n loc l,
      Stored st.mount st.currentDirCluster d (applyWrites writes d) name data size n loc l := by
  have hv := hs.valid
  obtain ⟨l, fatBuf', halloc, hspec, -, -, hcases⟩ :=
    storeFile_outcome_of_room hs hcwd hsize hroom h
  rcases hcases with ⟨-, hfailed, -⟩ | ⟨loc, ⟨n, htake⟩, -, rfl⟩
  · exact absurd hfailed (by decide)
  · have hunused := unused_of_tableAlloc halloc
    have hclusters := clusters_of_tableAlloc halloc
    have hcreated := created_of_storeWrites (hs.walks hcwd) halloc htake.1 data size
      (newEntry name 0x00 (l.headD 0) size)
    have hother (c : ℕ) (hc : c ∈ l) (k : ℕ) (hk : k < st.mount.spc) :
        loc.1 ≠ st.mount.clusterLba c k :=
      slot_ne_clusterLba (hs.walks hcwd) htake.1 hunused hclusters hc hk
    have hnodup : l.Nodup := by
      by_cases hnil : l = []
      · rw [hnil]
        exact List.nodup_nil
      · exact (hspec.chain hnil).nodup (not_dataCluster_of_endMark st.mount)
    have hholds : Holds st.mount (applyWrites (storeWrites st.mount data size ⟨true, l, fatBuf'⟩ ++
        [slotWrite d loc (newEntry name 0x00 (l.headD 0) size)]) d) data size 0 l := by
      rw [applyWrites_append]
      refine (holds_storeWrites hv data size hnodup hclusters d).congr fun c hc k hk => ?_
      rw [applyWrites_cons, applyWrites_nil, slotWrite,
        Function.update_of_ne (hother c hc k hk).symm]
    have hdirs := fun ld (hld : ChainOf st.mount d st.currentDirCluster ld) =>
      hunused.disjoint_chain hld
    have hkept := hcreated.edit.dirKept (hs.dirOk hcwd) hdirs
    refine ⟨n, loc, l, hkept.dirOk, htake, hkept.slotAt, fun k loc' hloc' hne => ?_,
      hcreated.entry, ?_, hspec.length, hholds⟩
    · exact hcreated.edit.entryAt_eq hv (hs.dirOk hcwd) hdirs hloc' hne
    · rw [hcreated.entry]
      exact hspec.owns_newEntry hcreated.table name size

/-- What was stored is what the name's file contains. -/
theorem Stored.contains {m : Mount} (hv : m.Valid) {dirc : ℕ} {d d' : Disk} {name : CString}
    {data : ℕ → UInt8} {size n : ℕ} {loc : Loc} {l : List ℕ}
    (h : Stored m dirc d d' name data size n loc l) (hsize : size < 2 ^ 32)
    (hnamed : Named m d' dirc (fileVerdict name) loc) : Contains m d' dirc name size data := by
  refine ⟨loc, l, hnamed, ?_, h.owns, fun i hi => ?_⟩
  · rw [h.entry, newEntry, UInt32.toNat_ofNat', Nat.mod_eq_of_lt (by omega)]
  · have hspc := hv.spc_pos
    have hlt : i / (512 * m.spc) < l.length := by
      rw [h.length]
      by_contra hle
      have hcover := (le_mul_iff_clustersFor_le hspc).mp (not_lt.mp hle)
      have hdiv := Nat.div_mul_le_self i (512 * m.spc)
      omega
    have hsector : (0 + i / (512 * m.spc)) * m.spc + i / 512 % m.spc = i / 512 := by
      rw [Nat.zero_add, ← Nat.div_div_eq_div_mul, Nat.div_add_mod']
    have hholds := h.holds _ _ _ (List.getElem?_eq_getElem hlt) (Nat.mod_lt (i / 512) hspc)
    rw [hsector] at hholds
    rw [chainByte, List.getElem?_eq_getElem hlt, Option.map_some,
      hholds (by unfold sectorsFor; omega), fileSector,
      Sector.byte_ofBytes _ (Nat.mod_lt i (by decide)), Nat.div_add_mod, if_pos hi]

/-- A file stored is read back under a name that finds it. -/
theorem Stored.read {st st' : Driver} {d d' : Disk} {name : CString} {data : ℕ → UInt8}
    {size n : ℕ} {loc : Loc} {l : List ℕ}
    (h : Stored st.mount st.currentDirCluster d d' name data size n loc l)
    (hv : st.mount.Valid) (hmount : st'.mount = st.mount)
    (hcwd : st'.currentDirCluster = st.currentDirCluster)
    (hnamed : Named st.mount d' st.currentDirCluster (fileVerdict name) loc) {bufSize : ℕ}
    (hsize : size ≤ bufSize) (hbuf : bufSize < 2 ^ 31) {fuel : ℕ} (hfuel : loopBound < fuel)
    (buf : ℕ → UInt8) :
    ∃ out st'', (fatRead fuel st' name buf bufSize).Returns d' (((size : ℤ), out), st'') [] ∧
      ∀ j < size, out j = data j := by
  have hsize32 : size < 2 ^ 32 := by omega
  have hcontains := h.contains hv hsize32 hnamed
  rw [← hmount, ← hcwd] at hcontains
  have hdir : DirOk st'.mount (fatAt st'.mount d') st'.currentDirCluster := by
    rw [hmount, hcwd]
    exact h.dirOk
  obtain ⟨out, hout, hread⟩ :=
    fatRead_contains (hmount ▸ hv.usable) hdir hcontains hbuf hfuel buf
  rw [Nat.min_eq_left hsize] at hout hread
  exact ⟨out, _, hread, hout⟩

/-- **What is written is read back.** After a write that fits and returns 0, every read
with a large enough buffer returns the size and the data written, whether the name was
new or replaced a file, and also for no data. -/
theorem fatRead_of_fatWrite {st st' : Driver} {d : Disk} (hs : Sound st.mount d)
    (hcwd : Reach st.mount d st.currentDirCluster) {name : CString} (hname : Valid83 name)
    {data : ℕ → UInt8} {size bufSize : ℕ}
    (hfits : Fits st.mount d st.currentDirCluster name (clustersFor st.mount size))
    (hsize : size ≤ bufSize) (hbuf : bufSize < 2 ^ 31) {fuel : ℕ} {writes : List (ℕ × Sector)}
    (hwrite : (fatWrite fuel st name data size).Returns d (0, st') writes) {fuel' : ℕ}
    (hfuel : loopBound < fuel') (buf : ℕ → UInt8) :
    ∃ out st'', (fatRead fuel' st' name buf bufSize).Returns (applyWrites writes d)
        (((size : ℤ), out), st'') [] ∧ ∀ j < size, out j = data j := by
  have hsize32 : size < 2 ^ 32 := by omega
  obtain ⟨hmount, hcluster⟩ := fatWrite_driver hs hcwd hsize32 hwrite
  obtain ⟨code, fatBuf, taken, first, second, hdelete, hstore, rfl, hs₁, hcwd₁⟩ :=
    fatWrite_split hs hcwd hwrite
  have hroom := hfits.after_delete hs hcwd hdelete
  obtain ⟨n, loc, l, hstored⟩ := stored_of_returns hs₁ hcwd₁ hsize32 hroom hstore
  obtain ⟨hstorable, hshort⟩ := hname.fits
  have hnamed := hstored.named hstorable hshort fun k hk loc' hloc' =>
    skip_before_free hs hcwd hdelete hstored.free hk hloc'
  rw [applyWrites_append]
  exact hstored.read hs.valid hmount hcluster hnamed hsize hbuf hfuel buf

/-- The byte stored on a blank volume is read back. -/
theorem fatRead_of_fatWrite_blank : ∃ st' out st'',
    (fatRead (loopBound + 1) st' nameA (fun _ => 0) 1).Returns fileDisk ((1, out), st'') [] ∧
      out 0 = 7 := by
  obtain ⟨st', hstore⟩ := storeA_returns
  have hready := ready_blank valid_smallMount
  obtain ⟨out, st'', hread, hout⟩ := fatRead_of_fatWrite hready.sound hready.cwd valid83_nameA
    fits_nameA (le_refl 1) (by decide) hstore (Nat.lt_succ_self _) fun _ => 0
  exact ⟨st', out, st'', hread, hout 0 Nat.one_pos⟩

end MasterOS.Fat
