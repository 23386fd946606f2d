/-
# A rename moves a name

`fat_rename` on a disk of any content. It packs the new name into the record it finds and
writes the sector back at an address that it works out anew from the directory's chain. So
nothing is asked of the volume but what the rename itself rests on: the directory can be
walked, the old name finds one file, the new one finds none, and that file's clusters are
not those of the directory. Then a read of the new name goes the way a read of the old one
went, on a disk that differs in eleven bytes.
-/

import MasterOS.Fat.Found

namespace MasterOS.Fat

open MasterOS.Device MasterOS.Device.Prog MasterOS.Math

/-! ## Reading the same record -/

/-- A result with a state beside it, without the state. -/
theorem exec_bind_ret_fst {α β : Type} (p : FatProg α) (value : β) (d : Disk) :
    ((p >>= fun a => .ret (a, value)).exec d).1.map Prod.fst = (p.exec d).1 := by
  rw [exec_bind]
  rcases p.exec d with ⟨fault | a, writes⟩ <;> rfl

section SameData

variable {d d' : Disk}

/-- The sectors of a cluster are read alike from disks that agree on them. -/
theorem readSectors_same {lba fileSize bufSize : ℕ} (left s bytesRead : ℕ) (buf : ℕ → UInt8)
    (hsame : ∀ k, s ≤ k → k < s + left →
      d' ((lba + k) % 2 ^ 32 % 2 ^ 28) = d ((lba + k) % 2 ^ 32 % 2 ^ 28)) :
    ∃ step, (readSectors lba fileSize bufSize left s bytesRead buf).Returns d step [] ∧
      (readSectors lba fileSize bufSize left s bytesRead buf).Returns d' step [] := by
  induction left generalizing s bytesRead buf with
  | zero => exact ⟨_, rfl, rfl⟩
  | succ left ih =>
      simp only [Returns, readSectors, ataRead, read_bind, exec_read, ret_bind]
      rw [hsame s le_rfl (by omega)]
      split_ifs
      all_goals first
        | exact ⟨_, rfl, rfl⟩
        | exact ih _ _ _ fun k hk hlt => hsame k (by omega) (by omega)

/-- A walk along a table is read alike from disks that agree on its clusters. -/
theorem readChain_same {m : Mount} (hu : m.Usable) {fatBuf : FatBuf} {fileSize bufSize : ℕ}
    (fuel c bytesRead : ℕ) (buf : ℕ → UInt8)
    (hsame : ∀ j x, walkAt (fatNextCluster fatBuf) c j = some x → ∀ k < m.spc,
      d' (m.clusterLba x k) = d (m.clusterLba x k)) :
    (readChain m fatBuf fileSize bufSize fuel c bytesRead buf).exec d' =
      (readChain m fatBuf fileSize bufSize fuel c bytesRead buf).exec d := by
  induction fuel generalizing c bytesRead buf with
  | zero => rfl
  | succ fuel ih =>
      by_cases hwalked : Walked c
      · have hlt : c < 65536 := lt_of_le_of_lt hwalked.2 (by decide)
        have haddr (k : ℕ) (hk : k < 0 + m.spc) :
            (m.clusterLba c 0 + k) % 2 ^ 32 % 2 ^ 28 = m.clusterLba c k := by
          have hk' : k < m.spc := by omega
          have hbound := hu.clusterLba_lt hwalked.1 hlt hk'
          have hadd : m.clusterLba c 0 + k = m.clusterLba c k := by
            rw [hu.clusterLba_eq hwalked.1 hlt hu.spc_pos, hu.clusterLba_eq hwalked.1 hlt hk']
            omega
          rw [hadd, mod32_of_lt hbound, Nat.mod_eq_of_lt hbound]
        have hfirst : walkAt (fatNextCluster fatBuf) c 0 = some c := if_pos hwalked
        obtain ⟨step, hstep, hstep'⟩ := @readSectors_same d d' (m.clusterLba c 0) fileSize bufSize
          m.spc 0 bytesRead buf fun k _ hk => by
            rw [haddr k hk]
            exact hsame 0 c hfirst k (by omega)
        rw [readChain, if_pos (show 2 ≤ c ∧ c ≤ 0xFEF from hwalked), hstep.exec_bind,
          hstep'.exec_bind]
        cases step with
        | failed buf' => rfl
        | finished bytesRead' buf' => rfl
        | more bytesRead' buf' =>
            have hnext := ih (fatNextCluster fatBuf c) bytesRead' buf' fun j x hx =>
              hsame (j + 1) x ((walkAt_succ hwalked j).trans hx)
            dsimp only [applyWrites_nil]
            rw [loadEntry, if_pos hwalked.inBuf, ret_bind]
            split_ifs
            · rfl
            · rw [hnext]
      · rw [readChain, if_neg (show ¬ (2 ≤ c ∧ c ≤ 0xFEF) from hwalked)]
        rfl

theorem readEntry_same {m : Mount} (hu : m.Usable) {fatBuf : FatBuf} {e e' : RawDirEntry}
    (hfirst : e'.firstCluster = e.firstCluster) (hsize : e'.fileSize = e.fileSize)
    (hsame : ∀ j x, walkAt (fatNextCluster fatBuf) e.firstCluster.toNat j = some x →
      ∀ k < m.spc, d' (m.clusterLba x k) = d (m.clusterLba x k)) (fuel : ℕ) (buf : ℕ → UInt8)
    (bufSize : ℕ) :
    ((readEntry m fatBuf fuel e' buf bufSize).exec d').1 =
      ((readEntry m fatBuf fuel e buf bufSize).exec d).1 := by
  rw [readEntry, readEntry, hfirst, hsize]
  split_ifs
  · rfl
  · rw [exec_bind, exec_bind, readChain_same hu fuel _ 0 buf hsame]
    rcases (readChain m fatBuf e.fileSize.toNat bufSize fuel e.firstCluster.toNat 0 buf).exec d
      with ⟨fault | ⟨_ | bytesRead, buf'⟩, writes⟩ <;> rfl

end SameData

/-! ## The disk after a rename -/

/-- A file of the directory that carries a name, whatever its case: it is live, which
excludes what lies behind the directory's end. -/
def Carries (m : Mount) (d : Disk) (dirc : ℕ) (name : CString) (loc : Loc) : Prop :=
  (∃ n, LiveAt m d dirc n loc) ∧ (entryAt d loc).isDir = false ∧
    (entryAt d loc).matches name = true

/-- A slot that the file search takes carries the name. -/
theorem carries_of_firstTake {m : Mount} {d : Disk} {dirc n : ℕ} {name : CString} {loc : Loc}
    (h : FirstTake (slotAt m (fatAt m d) dirc) d (fileVerdict name) n loc) :
    Carries m d dirc name loc :=
  Named.file ⟨n, h⟩

/-- A name that a file carries is found, at that file if it is the only one. -/
theorem Carries.firstTake {m : Mount} {d : Disk} {dirc : ℕ} {name : CString} {loc : Loc}
    (h : Carries m d dirc name loc) (honly : ∀ x, Carries m d dirc name x → x = loc) :
    ∃ n, FirstTake (slotAt m (fatAt m d) dirc) d (fileVerdict name) n loc := by
  obtain ⟨⟨n, hloc, hlive, hbefore⟩, hfile, hmatches⟩ := h
  have htake := fileVerdict_eq_take_iff.mpr ⟨hlive, hfile, hmatches⟩
  have hgo : ∀ k < n, ∀ x, slotAt m (fatAt m d) dirc k = some x →
      fileVerdict name (entryAt d x) ≠ .stop := by
    intro k hk x hx
    apply fileVerdict_ne_stop
    cases hend : (entryAt d x).isEnd with
    | false => rfl
    | true => exact absurd hend (hbefore k hk x hx)
  obtain ⟨n', x, -, hfirst⟩ := exists_firstTake hloc htake hgo
  obtain rfl := honly x (carries_of_firstTake hfirst)
  exact ⟨n', hfirst⟩

section SlotWrite

variable {m : Mount} {d : Disk} {loc : Loc} (e : RawDirEntry)

/-- Records elsewhere keep their content. -/
theorem entryAt_slotWrite_of_ne {x : Loc} (hne : x ≠ loc) :
    entryAt (applyWrites [slotWrite d loc e] d) x = entryAt d x := by
  rw [entryAt, applyWrites_cons, applyWrites_nil, slotWrite]
  by_cases hlba : x.1 = loc.1
  · rw [hlba, Function.update_self, entryAt, hlba,
      Sector.entry_setEntry_of_ne _ _ fun hi => hne (Prod.ext hlba hi)]
  · rw [Function.update_of_ne hlba, entryAt]

variable (hu : m.Usable) (htables : 1 ≤ m.bpb.fatCount.toNat) (hroot : m.rootStart ≤ loc.1)
include hu htables hroot

/-- The table that an operation loads is not touched. -/
theorem loaded_slotWrite (fatBuf : FatBuf) :
    loaded m (applyWrites [slotWrite d loc e] d) fatBuf = loaded m d fatBuf := by
  have hstart := hu.rootStart_eq
  have hsecs := m.fatSecs_le_sectorsPerFat
  have hcopy := Nat.mul_le_mul_right m.bpb.sectorsPerFat.toNat htables
  funext o
  unfold loaded
  split_ifs with ho
  · have hne : m.fatStart + o / 512 ≠ loc.1 := by omega
    rw [fatImage, fatImage, applyWrites_cons, applyWrites_nil, slotWrite, Function.update_of_ne hne]
  · rfl

theorem fatAt_slotWrite {c : ℕ} (hload : Loaded m c) :
    fatAt m (applyWrites [slotWrite d loc e] d) c = fatAt m d c := by
  have hsame := congrArg (fatNextCluster · c)
    (loaded_slotWrite (d := d) e hu htables hroot fun _ => 0)
  simpa only [fatNextCluster_loaded hload] using hsame

end SlotWrite

/-- Only the eleven bytes of the name in its slot are not what they were. -/
theorem bytes_of_rename (d : Disk) (loc : Loc) (newName : CString) (lba : ℕ) (i : Fin 512)
    (hne : applyWrites [slotWrite d loc (renamedEntry (entryAt d loc) newName)] d lba i ≠ d lba i) :
    lba = loc.1 ∧ 32 * loc.2 ≤ i.val ∧ i.val < 32 * loc.2 + 11 := by
  rw [applyWrites_cons, applyWrites_nil, slotWrite] at hne
  by_cases hlba : lba = loc.1
  · subst hlba
    rw [Function.update_self] at hne
    unfold Sector.setEntry at hne
    dsimp only at hne
    split_ifs at hne with hin
    · refine ⟨rfl, hin.1, ?_⟩
      by_contra hge
      have hk : i.val - 32 * loc.2 < 32 := by omega
      have hsum : 32 * loc.2 + (i.val - 32 * loc.2) = i.val := by omega
      have hbyte : (renamedEntry (entryAt d loc) newName).byteAt (i.val - 32 * loc.2) =
          (entryAt d loc).byteAt (i.val - 32 * loc.2) := by
        simp only [RawDirEntry.byteAt, renamedEntry,
          dif_neg (show ¬ i.val - 32 * loc.2 < 8 by omega),
          dif_neg (show ¬ i.val - 32 * loc.2 < 11 by omega)]
      rw [hbyte, entryAt, Sector.byteAt_entry _ _ hk, hsum, Sector.byte, dif_pos i.isLt] at hne
      exact hne rfl
    · exact absurd rfl hne
  · rw [Function.update_of_ne hlba] at hne
    exact absurd rfl hne

/-! ## Renaming -/

/-- What the rename of a file rests on: a layout with sectors in its clusters and at least
one table, a directory that can be walked to its end, an old name that one file carries, a
new name that none does and that is a name of the 8.3 form, and a walk of that file, along
the table that `fat_read` loads, that meets no cluster of the directory. That the two names
differ in more than case follows. -/
structure CanRename (st : Driver) (d : Disk) (oldName newName : CString) (loc : Loc) : Prop where
  usable : st.mount.Usable
  tables : 1 ≤ st.mount.bpb.fatCount.toNat
  dir : FiniteDir st.mount (fatAt st.mount d) st.currentDirCluster
  old : Carries st.mount d st.currentDirCluster oldName loc
  only : ∀ x, Carries st.mount d st.currentDirCluster oldName x → x = loc
  valid : Valid83 newName
  free : ∀ x, ¬ Carries st.mount d st.currentDirCluster newName x
  apart : st.currentDirCluster ≠ 0 → ∀ j k x,
    walkAt (fatNextCluster (loaded st.mount d (st.fatBuf .read)))
      (entryAt d loc).firstCluster.toNat j = some x →
    dirCluster (fatAt st.mount d) st.currentDirCluster k ≠ some x

/-- The name has moved: the new one reads as the old one did, for every buffer and its
size, the old one reads no more, and nothing but the name's bytes is different. -/
structure NameMoved (st : Driver) (d : Disk) (st' : Driver) (d' : Disk)
    (oldName newName : CString) (loc : Loc) : Prop where
  reads : ∀ fuel buf bufSize, loopBound < fuel →
    ((fatRead fuel st' newName buf bufSize).exec d').1.map Prod.fst =
      ((fatRead fuel st oldName buf bufSize).exec d).1.map Prod.fst
  gone : ∀ fuel buf bufSize, loopBound < fuel → ∃ st'',
    (fatRead fuel st' oldName buf bufSize).Returns d' ((-1, buf), st'') []
  bytes : ∀ lba (i : Fin 512), d' lba i ≠ d lba i →
    lba = loc.1 ∧ 32 * loc.2 ≤ i.val ∧ i.val < 32 * loc.2 + 11

namespace CanRename

variable {st : Driver} {d : Disk} {oldName newName : CString} {loc : Loc}
  (h : CanRename st d oldName newName loc)
include h

/-- The record lies behind the tables. -/
theorem rootStart_le : st.mount.rootStart ≤ loc.1 := by
  obtain ⟨⟨n, hloc, -, -⟩, -, -⟩ := h.old
  exact (h.dir.bounds h.usable (slotAt_eq_some_iff.mp hloc).1).1

theorem slot_lt : loc.2 < 16 := by
  obtain ⟨⟨n, hloc, -, -⟩, -, -⟩ := h.old
  exact MasterOS.Fat.slot_lt hloc

/-- The record under its new name. -/
theorem entryAt_self :
    entryAt (applyWrites [slotWrite d loc (renamedEntry (entryAt d loc) newName)] d) loc =
      renamedEntry (entryAt d loc) newName :=
  entryAt_applyWrites_slotWrite _ h.slot_lt

/-- The rename leaves the directory where it was. -/
theorem dir_kept :
    FiniteDir st.mount (fatAt st.mount (applyWrites
        [slotWrite d loc (renamedEntry (entryAt d loc) newName)] d)) st.currentDirCluster ∧
      slotAt st.mount (fatAt st.mount (applyWrites
        [slotWrite d loc (renamedEntry (entryAt d loc) newName)] d)) st.currentDirCluster =
        slotAt st.mount (fatAt st.mount d) st.currentDirCluster := by
  have hsame : ∀ x, DataCluster st.mount x → fatAt st.mount (applyWrites
      [slotWrite d loc (renamedEntry (entryAt d loc) newName)] d) x = fatAt st.mount d x :=
    fun x hx => fatAt_slotWrite _ h.usable h.tables h.rootStart_le hx.2.2
  exact ⟨h.dir.congr hsame, h.dir.slotAt_eq hsame⟩

/-- **The new name is found where the old one was.** -/
theorem firstTake {n : ℕ}
    (hold : FirstTake (slotAt st.mount (fatAt st.mount d) st.currentDirCluster) d
      (fileVerdict oldName) n loc) :
    FirstTake (slotAt st.mount (fatAt st.mount d) st.currentDirCluster)
      (applyWrites [slotWrite d loc (renamedEntry (entryAt d loc) newName)] d)
      (fileVerdict newName) n loc := by
  obtain ⟨hloc, htake, hbefore⟩ := hold
  obtain ⟨hstorable, hfits⟩ := h.valid.fits
  obtain ⟨⟨-, -, hlive, -⟩, hfile, -⟩ := h.old
  refine ⟨hloc, ?_, fun k hk x hx => ?_⟩
  · rw [h.entryAt_self]
    exact (fileVerdict_renamedEntry hstorable hlive hfile).mpr hfits
  · have hskip := hbefore k hk x hx
    have hne : x ≠ loc := by
      rintro rfl
      rw [htake] at hskip
      exact absurd hskip (by decide)
    have hnotEnd := isEnd_of_fileVerdict_skip hskip
    rw [entryAt_slotWrite_of_ne _ hne]
    -- the record is no end, and taking it would make it carry the new name
    cases hverdict : fileVerdict newName (entryAt d x) with
    | skip => rfl
    | stop => exact absurd hverdict (fileVerdict_ne_stop hnotEnd)
    | take =>
        obtain ⟨hlive', hfile', hmatches'⟩ := fileVerdict_eq_take_iff.mp hverdict
        refine absurd ⟨⟨k, hx, hlive', fun j hj y hy hend => ?_⟩, hfile', hmatches'⟩ (h.free x)
        have hnot := isEnd_of_fileVerdict_skip (hbefore j (lt_trans hj hk) y hy)
        exact absurd (hnot.symm.trans hend) (by decide)

/-- **The old name is found no more.** -/
theorem not_firstTake (n : ℕ) (x : Loc) :
    ¬ FirstTake (slotAt st.mount (fatAt st.mount d) st.currentDirCluster)
      (applyWrites [slotWrite d loc (renamedEntry (entryAt d loc) newName)] d)
      (fileVerdict oldName) n x := by
  rintro ⟨hx, htake, hbefore⟩
  obtain ⟨hstorable, hfits⟩ := h.valid.fits
  obtain ⟨⟨k, hloc, hlive, hends⟩, hfile, hmatches⟩ := h.old
  obtain ⟨hlive', hfile', hmatches'⟩ := fileVerdict_eq_take_iff.mp htake
  by_cases hne : x = loc
  · -- the record would carry both names, which are then one
    subst hne
    rw [h.entryAt_self] at hmatches'
    have hnew := fileVerdict_eq_take_iff.mp
      ((fileVerdict_renamedEntry hstorable hlive hfile).mpr hfits)
    rw [RawDirEntry.matches_iff] at hmatches hmatches'
    have hnames := hmatches'.symm.trans ((RawDirEntry.matches_iff _ _).mp hnew.2.2)
    refine h.free x ⟨⟨k, hloc, hlive, hends⟩, hfile, ?_⟩
    exact (RawDirEntry.matches_iff _ _).mpr (hmatches.trans hnames)
  · rw [entryAt_slotWrite_of_ne _ hne] at hlive' hfile' hmatches'
    refine hne (h.only x ⟨⟨n, hx, hlive', fun j hj y hy hend => ?_⟩, hfile', hmatches'⟩)
    by_cases hy' : y = loc
    · rw [hy'] at hend
      exact entryKind.not_isEnd_of_live _ hlive hend
    · have hnot := isEnd_of_fileVerdict_skip (hbefore j hj y hy)
      rw [entryAt_slotWrite_of_ne _ hy'] at hnot
      exact absurd (hnot.symm.trans hend) (by decide)

/-- No cluster on the file's walk is one of the directory, so its sectors are kept. -/
theorem clusters_kept {j x k : ℕ}
    (hwalk : walkAt (fatNextCluster (loaded st.mount d (st.fatBuf .read)))
      (entryAt d loc).firstCluster.toNat j = some x) (hk : k < st.mount.spc) :
    applyWrites [slotWrite d loc (renamedEntry (entryAt d loc) newName)] d
      (st.mount.clusterLba x k) = d (st.mount.clusterLba x k) := by
  obtain ⟨⟨n, hloc, -, -⟩, -, -⟩ := h.old
  have hwalked := walkAt_walked hwalk
  have hlt : x < 65536 := lt_of_le_of_lt hwalked.2 (by decide)
  have hne : st.mount.clusterLba x k ≠ loc.1 := by
    intro heq
    rcases h.dir.sector_cases h.usable (slotAt_eq_some_iff.mp hloc).1 with
      ⟨-, -, hroot⟩ | ⟨hdirc, y, hy, hdata, hlba⟩
    · have hge := h.usable.dataStart_le_clusterLba hwalked.1 hlt hk
      omega
    · have hylt : y < 65536 := lt_trans hdata.lt (by decide)
      obtain ⟨rfl, -⟩ := h.usable.clusterLba_inj hwalked.1 hlt hk hdata.1 hylt
        (Nat.mod_lt _ h.usable.spc_pos) (heq.trans hlba)
      exact h.apart hdirc j _ x hwalk hy
  rw [applyWrites_cons, applyWrites_nil, slotWrite, Function.update_of_ne hne]

/-- The rename succeeds, with one write. -/
theorem returns {fuel : ℕ} (hfuel : loopBound < fuel) :
    (fatRename fuel st oldName newName).Returns d
      (0, st.keepBuf .rename (loaded st.mount d (st.fatBuf .rename)))
      [slotWrite d loc (renamedEntry (entryAt d loc) newName)] := by
  obtain ⟨n, htake⟩ := h.old.firstTake h.only
  have hfind := findSlot_of_firstTake h.usable h.dir (st.fatBuf .rename) hfuel htake
  have hsame : ∀ x, DataCluster st.mount x →
      fatNextCluster (loaded st.mount d (st.fatBuf .rename)) x = fatAt st.mount d x :=
    fun x hx => fatNextCluster_loaded hx.2.2
  have hlba := (slotAt_eq_some_iff.mp htake.1).1
  rw [← h.dir.dirLba_eq hsame] at hlba
  have hwrite := (h.dir.congr hsame).writeDirSector_returns h.usable hlba
    ((d loc.1).setEntry loc.2 (renamedEntry (entryAt d loc) newName)) d
  rw [fatRename, Returns, withFat_exec_usable h.usable]
  exact hfind.bind_nil (hwrite.bind_ret rfl)

end CanRename

/-- **A rename moves a name and nothing else.** -/
theorem fatRename_moves_name {st : Driver} {d : Disk} {oldName newName : CString} {loc : Loc}
    (h : CanRename st d oldName newName loc) {fuel : ℕ} (hfuel : loopBound < fuel) :
    ∃ st' writes, (fatRename fuel st oldName newName).Returns d (0, st') writes ∧
      NameMoved st d st' (applyWrites writes d) oldName newName loc := by
  obtain ⟨n, htake⟩ := h.old.firstTake h.only
  obtain ⟨hdir, hslots⟩ := h.dir_kept
  have hread : (st.keepBuf .rename (loaded st.mount d (st.fatBuf .rename))).fatBuf .read =
      st.fatBuf .read := rfl
  refine ⟨_, _, h.returns hfuel, fun fuel' buf bufSize hfuel' => ?_,
    fun fuel' buf bufSize hfuel' => ?_, bytes_of_rename d loc newName⟩
  · rw [@fatRead_found (st.keepBuf .rename _) h.usable _ hdir newName fuel' hfuel' buf bufSize n
      loc (hslots ▸ h.firstTake htake), fatRead_found h.usable h.dir hfuel' buf bufSize htake,
      exec_bind_ret_fst, exec_bind_ret_fst, h.entryAt_self, hread, Driver.keepBuf_mount,
      loaded_slotWrite _ h.usable h.tables h.rootStart_le]
    exact readEntry_same h.usable rfl rfl (fun j x hx k hk => h.clusters_kept hx hk) fuel' buf
      bufSize
  · exact ⟨_, @fatRead_not_found (st.keepBuf .rename _) h.usable _ hdir oldName fuel' hfuel' buf
      bufSize fun n x => hslots ▸ h.not_firstTake n x⟩

/-- The one file of a volume can be renamed. -/
theorem canRename_fileDisk :
    CanRename (freshDriver smallMount) fileDisk nameA nameB (2, 0) where
  usable := valid_smallMount.usable
  tables := by decide
  dir := Or.inl rfl
  old := ⟨⟨0, liveAt_fileDisk_iff.mpr ⟨rfl, rfl⟩⟩, entryAt_fileDisk.2.1, by decide +kernel⟩
  only := by
    rintro x ⟨⟨n, hlive⟩, -, -⟩
    exact (liveAt_fileDisk_iff.mp hlive).2
  valid := valid83_nameB
  free := by
    rintro x ⟨⟨n, hlive⟩, -, hmatches⟩
    obtain ⟨-, rfl⟩ := liveAt_fileDisk_iff.mp hlive
    exact absurd (hmatches.symm.trans entryAt_fileDisk.2.2.1) (by decide)
  apart := fun hne => absurd rfl hne

theorem fatRename_moves_name_fileDisk : ∃ st' writes,
    (fatRename (loopBound + 1) (freshDriver smallMount) nameA nameB).Returns fileDisk (0, st')
      writes ∧
    NameMoved (freshDriver smallMount) fileDisk st' (applyWrites writes fileDisk) nameA nameB
      (2, 0) :=
  fatRename_moves_name canRename_fileDisk (Nat.lt_succ_self loopBound)

end MasterOS.Fat
