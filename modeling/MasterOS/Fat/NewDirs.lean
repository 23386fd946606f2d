/-
# What a new directory holds

`fat_mkdir` writes the first sector of a new directory's cluster and leaves the others as
they were. The directory is empty exactly when these already read as empty. It then holds
the files that are written to it, one slot behind the other, and `fat_list` reports them in
this order.
-/

import MasterOS.Fat.Found

namespace MasterOS.Fat

open MasterOS.Device MasterOS.Device.Prog MasterOS.Math

/-! ## A directory of one cluster -/

/-- Slot `k` of a directory that is one cluster. -/
def slotIn (m : Mount) (c k : ℕ) : Loc := (m.clusterLba c (k / 16), k % 16)

theorem dirLba_singleton {m : Mount} (hspc : 1 ≤ m.spc) {next : ℕ → ℕ} {c : ℕ}
    (h : Chain next (DataCluster m) EndMark c [c]) (s : ℕ) :
    dirLba m next c s = if s < m.spc then some (m.clusterLba c s) else none := by
  rw [dirLba_of_chain h]
  split_ifs with hs
  · rw [Nat.div_eq_of_lt hs, Nat.mod_eq_of_lt hs]
    rfl
  · have hpast : 1 ≤ s / m.spc := (Nat.one_le_div_iff hspc).mpr (Nat.le_of_not_lt hs)
    rw [List.getElem?_eq_none hpast]
    rfl

theorem slotAt_singleton {m : Mount} (hspc : 1 ≤ m.spc) {next : ℕ → ℕ} {c : ℕ}
    (h : Chain next (DataCluster m) EndMark c [c]) (k : ℕ) :
    slotAt m next c k = if k < 16 * m.spc then some (slotIn m c k) else none := by
  have hlt : k / 16 < m.spc ↔ k < 16 * m.spc := by omega
  rw [slotAt, dirLba_singleton hspc h]
  simp only [hlt]
  split_ifs <;> rfl

theorem slotIn_inj {m : Mount} (hv : m.Valid) {c k k' : ℕ} (hok : DataCluster m c)
    (hk : k < 16 * m.spc) (hk' : k' < 16 * m.spc) (heq : slotIn m c k = slotIn m c k') : k = k' := by
  obtain ⟨hlba, hmod⟩ := Prod.mk.inj heq
  have hlt : c < 6146 := hok.lt.trans (by decide)
  have hdiv := (hv.clusterLba_inj hok.1 hlt (by omega) hok.1 hlt (by omega) hlba).2
  rw [← Nat.div_add_mod k 16, hdiv, hmod, Nat.div_add_mod]

/-- Two names are different, ignoring case. -/
def Distinct (a b : CString) : Prop := a.chars.map kToupper ≠ b.chars.map kToupper

/-- A directory of one cluster holds these files in this order behind its two dot records,
and nothing behind them. -/
structure DirHolds (m : Mount) (d : Disk) (c : ℕ) (files : List (CString × ℕ)) : Prop where
  chain : ChainOf m d c [c]
  dots : ∀ k < 2, ∃ dots first, 0 < dots ∧ entryAt d (slotIn m c k) = dotEntry dots first
  valid : ∀ f ∈ files, Valid83 f.1
  stored : ∀ j f, files[j]? = some f →
    ∃ first, entryAt d (slotIn m c (2 + j)) = newEntry f.1 0x00 first f.2
  ended : ∀ k, 2 + files.length ≤ k → k < 16 * m.spc → (entryAt d (slotIn m c k)).isEnd = true
  fits : 2 + files.length ≤ 16 * m.spc

namespace DirHolds

variable {m : Mount} {d : Disk} {c : ℕ} {files : List (CString × ℕ)} (h : DirHolds m d c files)
include h

theorem walks (hv : m.Valid) : Walks m d c := ⟨hv, Or.inr ⟨[c], h.chain⟩⟩

theorem slotAt_eq (k : ℕ) :
    slotAt m (fatAt m d) c k = if k < 16 * m.spc then some (slotIn m c k) else none := by
  have := h.fits
  exact slotAt_singleton (by omega) h.chain k

/-- The slots up to the last file are in use. -/
theorem used {k : ℕ} (hk : k < 2 + files.length) :
    (entryAt d (slotIn m c k)).isEnd = false ∧ (entryAt d (slotIn m c k)).isDeleted = false := by
  by_cases hdot : k < 2
  · obtain ⟨dots, first, hpos, hentry⟩ := h.dots k hdot
    have hname : (dotEntry dots first).name 0 = 0x2E := by simp [dotEntry, hpos]
    rw [hentry]
    exact ⟨(dotEntry_flags hpos first).2.1, by simp [RawDirEntry.isDeleted, hname]⟩
  · obtain ⟨j, rfl⟩ : ∃ j, k = 2 + j := ⟨k - 2, by omega⟩
    have hj : j < files.length := by omega
    obtain ⟨first, hentry⟩ := h.stored j files[j] (List.getElem?_eq_getElem hj)
    have hname := (h.valid files[j] (List.getElem_mem hj)).fits.1
    rw [hentry]
    refine ⟨(newEntry_flags _ _ _ _).1, ?_⟩
    simpa [RawDirEntry.isDeleted, newEntry] using hname.split83_fst_zero_ne

/-- The first free slot is the one behind the last file. -/
theorem free_slot {n : ℕ} {loc : Loc}
    (htake : FirstTake (slotAt m (fatAt m d) c) d freeVerdict n loc) :
    n = 2 + files.length ∧ n < 16 * m.spc ∧ loc = slotIn m c n := by
  have hslot := htake.1
  rw [h.slotAt_eq] at hslot
  split_ifs at hslot with hn
  · obtain rfl := Option.some.inj hslot
    have hnotUsed : ¬ n < 2 + files.length := by
      intro hlt
      obtain ⟨hend, hdeleted⟩ := h.used hlt
      have hfree := freeVerdict_eq_take_iff.mp htake.2.1
      rw [hend, hdeleted] at hfree
      exact absurd hfree (by decide)
    have hnotPast : ¬ 2 + files.length < n := by
      intro hlt
      have hslot' : slotAt m (fatAt m d) c (2 + files.length) =
          some (slotIn m c (2 + files.length)) := by
        rw [h.slotAt_eq, if_pos (by omega)]
      have hskip := (htake.before_free hlt hslot').1
      rw [h.ended _ le_rfl (by omega)] at hskip
      exact absurd hskip (by decide)
    exact ⟨by omega, hn, rfl⟩

/-- A name that none of the files has finds nothing. -/
theorem not_named {name : CString} (hnew : ∀ f ∈ files, Distinct f.1 name) (loc : Loc) :
    ¬ Named m d c (fileVerdict name) loc := by
  rintro ⟨n, hslot, htake, -⟩
  rw [h.slotAt_eq] at hslot
  obtain ⟨hlive, hfile, hmatches⟩ := fileVerdict_eq_take_iff.mp htake
  split_ifs at hslot with hn
  · obtain rfl := Option.some.inj hslot
    by_cases hdot : n < 2
    · obtain ⟨dots, first, -, hentry⟩ := h.dots n hdot
      rw [hentry] at hfile
      exact absurd hfile (by simp [RawDirEntry.isDir, dotEntry])
    · by_cases hlast : n < 2 + files.length
      · obtain ⟨j, rfl⟩ : ∃ j, n = 2 + j := ⟨n - 2, by omega⟩
        have hj : j < files.length := by omega
        have hmem := List.getElem_mem hj
        obtain ⟨first, hentry⟩ := h.stored j files[j] (List.getElem?_eq_getElem hj)
        obtain ⟨hname, hfits⟩ := (h.valid files[j] hmem).fits
        rw [hentry, RawDirEntry.matches_iff] at hmatches
        exact hnew files[j] hmem
          (((matches_split83_iff hname.noSpace).mpr hfits).symm.trans hmatches)
      · have hend := h.ended n (by omega) hn
        rw [RawDirEntry.isEnd_of_live hlive] at hend
        exact absurd hend (by decide)

/-- A file put into the first free slot stands behind the others. -/
theorem created (hv : m.Valid) {d' : Disk} {n first size : ℕ} {loc : Loc} {name : CString}
    {a : Chained} (htake : FirstTake (slotAt m (fatAt m d) c) d freeVerdict n loc)
    (hcreated : Created m d d' loc (newEntry name 0x00 first size) a)
    (hunused : Unused m d a.clusters) (hname : Valid83 name) :
    DirHolds m d' c (files ++ [(name, size)]) := by
  obtain ⟨rfl, hlt, rfl⟩ := h.free_slot htake
  have hwalk := h.walks hv
  have hdis := fun ld (hld : ChainOf m d c ld) => hunused.disjoint_chain hld
  have hother {k : ℕ} (hk : k < 16 * m.spc) (hne : k ≠ 2 + files.length) :
      entryAt d' (slotIn m c k) = entryAt d (slotIn m c k) := by
    have hslot : slotAt m (fatAt m d) c k = some (slotIn m c k) := by
      rw [h.slotAt_eq, if_pos hk]
    refine hcreated.edit.entryAt_eq hv hwalk.dirOk hdis hslot fun heq => hne ?_
    exact slotIn_inj hv h.chain.ok_head hk hlt heq
  refine ⟨hcreated.edit.chainOf h.chain (hdis _ h.chain), ?_, ?_, ?_, ?_, ?_⟩
  · intro k hk
    rw [hother (by omega) (by omega)]
    exact h.dots k hk
  · intro f hf
    rcases List.mem_append.mp hf with hf | hf
    · exact h.valid f hf
    · rw [List.mem_singleton.mp hf]
      exact hname
  · intro j f hf
    by_cases hj : j < files.length
    · rw [List.getElem?_append_left hj] at hf
      rw [hother (by omega) (by omega)]
      exact h.stored j f hf
    · have hlen := (List.getElem?_eq_some_iff.mp hf).1
      rw [List.length_append, List.length_singleton] at hlen
      obtain rfl : j = files.length := by omega
      rw [List.getElem?_concat_length] at hf
      obtain rfl := Option.some.inj hf
      exact ⟨first, hcreated.entry⟩
  · intro k hk hlt'
    rw [List.length_append, List.length_singleton] at hk
    rw [hother hlt' (by omega)]
    exact h.ended k (by omega) hlt'
  · rw [List.length_append, List.length_singleton]
    omega

end DirHolds

/-! ## Writing into it -/

/-- Files are written one after the other, each successfully. -/
inductive Writes : System → List (CString × ℕ) → System → Prop
  | nil {s : System} : Writes s [] s
  | next {s s' : System} {files : List (CString × ℕ)} {name : CString} {data : ℕ → UInt8}
      {size fuel : ℕ} {st : Driver} {writes : List (ℕ × Sector)} :
      Writes s files s' → Valid83 name → size < 2 ^ 32 →
      (fatWrite fuel s'.driver name data size).Returns s'.disk (0, st) writes →
      Writes s (files ++ [(name, size)]) ⟨st, applyWrites writes s'.disk⟩

/-- A write of a new name that succeeds puts the file behind the others. -/
theorem DirHolds.write {st st' : Driver} {d : Disk} (hv : st.mount.Valid)
    {files : List (CString × ℕ)} (h : DirHolds st.mount d st.currentDirCluster files)
    {name : CString} (hname : Valid83 name) (hnew : ∀ f ∈ files, Distinct f.1 name)
    {data : ℕ → UInt8} {size : ℕ} (hsize : size < 2 ^ 32) {fuel : ℕ} {writes : List (ℕ × Sector)}
    (hwrite : (fatWrite fuel st name data size).Returns d (0, st') writes) :
    st'.mount = st.mount ∧ st'.currentDirCluster = st.currentDirCluster ∧
      DirHolds st.mount (applyWrites writes d) st.currentDirCluster (files ++ [(name, size)]) := by
  have hwalk := h.walks hv
  obtain ⟨taken, htaken⟩ : ∃ taken, (fatWriteTaken fuel st name data size).Returns d
      ((0, taken), st') writes := (fatWrite_returns_iff name data).mp hwrite
  obtain ⟨⟨code, st₁⟩, first, second, hdelete, hstore, rfl⟩ :=
    (fatWriteTaken_returns_iff name data hv).mp htaken
  -- nothing of the name is there to be deleted
  obtain ⟨big, hmax, hdelete⟩ := returns_of_more_fuel (p := fun n => fatDelete n st name)
    (fun _ _ hle => removeEntry_extends hle st .delete (fileVerdict name)) hdelete
  obtain ⟨hresult, rfl⟩ := hdelete.unique
    (removeEntry_returns_none hwalk hmax (h.not_named hnew))
  obtain ⟨-, rfl⟩ := Prod.mk.inj hresult
  have hwalk₁ : Walks (st.keepBuf .delete (loaded st.mount d (st.fatBuf .delete))).mount d
      (st.keepBuf .delete (loaded st.mount d (st.fatBuf .delete))).currentDirCluster := hwalk
  obtain ⟨a, halloc, -, rfl, hcases⟩ := storeFile_outcome hwalk₁ hsize hstore
  refine ⟨rfl, rfl, ?_⟩
  rcases hcases with ⟨-, hfailed, -⟩ | ⟨-, -, hfailed, -⟩ | ⟨loc, -, ⟨n, htake⟩, -, rfl⟩
  · exact absurd hfailed (by decide)
  · exact absurd hfailed (by decide)
  · exact h.created hv htake (created_of_storeWrites hwalk₁ halloc htake.1 data size _)
      (unused_of_tableAlloc halloc) hname

/-- After any sequence of writes of different names the directory holds what was written. -/
theorem DirHolds.writes {s s' : System} (hv : s.driver.mount.Valid)
    (h : DirHolds s.driver.mount s.disk s.driver.currentDirCluster [])
    {files : List (CString × ℕ)} (hwrites : Writes s files s')
    (hdistinct : files.Pairwise fun f g => Distinct f.1 g.1) :
    s'.driver.mount = s.driver.mount ∧
      s'.driver.currentDirCluster = s.driver.currentDirCluster ∧
      DirHolds s'.driver.mount s'.disk s'.driver.currentDirCluster files := by
  induction hwrites with
  | nil => exact ⟨rfl, rfl, h⟩
  | @next s' files name data size fuel st writes _ hname hsize hwrite ih =>
      obtain ⟨hbefore, -, hnew⟩ := List.pairwise_append.mp hdistinct
      obtain ⟨hmount, hcwd, hholds⟩ := ih hbefore
      have hnew' : ∀ f ∈ files, Distinct f.1 name :=
        fun f hf => hnew f hf (name, size) (List.mem_singleton_self _)
      obtain ⟨hmount', hcwd', hholds'⟩ :=
        hholds.write (hmount ▸ hv) hname hnew' hsize hwrite
      refine ⟨hmount'.trans hmount, hcwd'.trans hcwd, ?_⟩
      rw [hmount', hcwd']
      exact hholds'

/-! ## Listing it -/

theorem loadedTable_eq {m : Mount} (hv : m.Valid) (d : Disk) (fatBuf : FatBuf) :
    loadedTable m d fatBuf = loaded m d fatBuf := by
  obtain ⟨hresult, -⟩ :=
    (loadFat_returns_loadedTable m d fatBuf).unique (loadFat_returns hv.usable d fatBuf)
  exact (Prod.mk.inj hresult).2

namespace DirHolds

variable {m : Mount} {d : Disk} {c : ℕ} {files : List (CString × ℕ)} (h : DirHolds m d c files)
include h

omit h in
theorem entryAt_slotIn {s i : ℕ} (hi : i < 16) :
    entryAt d (slotIn m c (16 * s + i)) = (d (m.clusterLba c s)).entry i := by
  rw [entryAt, slotIn]
  have hdiv : (16 * s + i) / 16 = s := by omega
  have hmod : (16 * s + i) % 16 = i := by omega
  rw [hdiv, hmod]

omit h in
/-- The records of one sector, as slots of the directory. -/
theorem map_entry_sector {s n : ℕ} (hn : n ≤ 16) :
    (List.range n).map (d (m.clusterLba c s)).entry =
      (List.range' (16 * s) n).map fun k => entryAt d (slotIn m c k) := by
  rw [List.range'_eq_map_range, List.map_map]
  refine List.map_congr_left fun i hi => ?_
  exact (entryAt_slotIn ((List.mem_range.mp hi).trans_le hn)).symm

/-- The records from sector `s` on, up to the last file. -/
theorem scan (hv : m.Valid) (fatBuf : FatBuf) {left s : ℕ} (hleft : s + left = m.spc)
    (hs : 16 * s ≤ 2 + files.length) : ∃ n ≤ left,
    DirScan m c (loaded m d fatBuf) d s n
      ((List.range' (16 * s) (2 + files.length - 16 * s)).map fun k => entryAt d (slotIn m c k)) := by
  have hfits := h.fits
  have hwalk := h.walks hv
  have hspc : 1 ≤ m.spc := hv.spc_pos
  have hread (s : ℕ) := readDirSector_returns hv.usable (hwalk.dirKept_loaded fatBuf).dirOk s d
  simp only [(hwalk.dirKept_loaded fatBuf).dirLba, dirLba_singleton hspc h.chain] at hread
  induction left generalizing s with
  | zero =>
      have hdone : 2 + files.length - 16 * s = 0 := by omega
      have hpast := hread s
      rw [if_neg (by omega)] at hpast
      rw [hdone]
      exact ⟨0, le_rfl, .past hpast⟩
  | succ left ih =>
      have hsector := hread s
      rw [if_pos (by omega)] at hsector
      by_cases hfull : 16 * (s + 1) ≤ 2 + files.length
      · -- the sector is full, and the files go on in the next one
        obtain ⟨n, hn, hscan⟩ := ih (by omega) hfull
        have hwrap : (s + 1) % 2 ^ 32 = s + 1 := by
          have := m.spc_lt
          exact Nat.mod_eq_of_lt (by omega)
        have hsplit : 2 + files.length - 16 * s = 16 + (2 + files.length - 16 * (s + 1)) := by
          omega
        refine ⟨n + 1, by omega, ?_⟩
        rw [hsplit, List.range'_append_1.symm, List.map_append, ← map_entry_sector le_rfl]
        refine .next hsector (fun j hj => ?_) ?_
        · rw [← entryAt_slotIn hj]
          exact (h.used (by omega)).1
        · rw [hwrap]
          exact hscan
      · -- the files end in this sector
        refine ⟨0, Nat.zero_le _, ?_⟩
        rw [← map_entry_sector (by omega)]
        refine .ended hsector (by omega) ?_ fun j hj => ?_
        · rw [← entryAt_slotIn (by omega)]
          exact h.ended _ (by omega) (by omega)
        · rw [← entryAt_slotIn (by omega)]
          exact (h.used (by omega)).1

/-- Of the records up to the last file, those of the files are listed. -/
theorem reports : ((((List.range' 0 (2 + files.length)).map fun k =>
    entryAt d (slotIn m c k)).filter (·.listed)).map (·.report)).map (fun x => (x.name, x.size)) =
      files.map fun f => (f.1.chars.map kToupper, UInt32.ofNat f.2) := by
  have hdots : ∀ k ∈ List.range' 0 2, (entryAt d (slotIn m c k)).listed = false := by
    intro k hk
    rw [List.mem_range'_1] at hk
    obtain ⟨dots, first, hpos, hentry⟩ := h.dots k (by omega)
    have hdot : (dotEntry dots first).startsWithDot = true := by
      simp [RawDirEntry.startsWithDot, dotEntry, hpos]
    rw [hentry, RawDirEntry.listed, hdot, Bool.not_true, Bool.and_false]
  have hfile (j : ℕ) (hj : j < files.length) : (entryAt d (slotIn m c (2 + j))).listed = true ∧
      ((entryAt d (slotIn m c (2 + j))).report.name, (entryAt d (slotIn m c (2 + j))).report.size) =
        (files[j].1.chars.map kToupper, UInt32.ofNat files[j].2) := by
    obtain ⟨first, hentry⟩ := h.stored j files[j] (List.getElem?_eq_getElem hj)
    obtain ⟨hname, hfits⟩ := (h.valid files[j] (List.getElem_mem hj)).fits
    obtain ⟨-, hdot⟩ := newEntry_flags files[j].1 0x00 first files[j].2
    have hdeleted := (h.used (show 2 + j < 2 + files.length by omega)).2
    have hlabel : (newEntry files[j].1 0x00 first files[j].2).isLabel = false := by
      simp [RawDirEntry.isLabel, newEntry]
    rw [hentry] at hdeleted ⊢
    refine ⟨by simp [RawDirEntry.listed, hdeleted, hlabel, hdot], ?_⟩
    show (makeName (split83 files[j].1).1 (split83 files[j].1).2, _) = _
    rw [makeName_split83 hname.noSpace, hfits.storedPart_eq]
    rfl
  have hnone : ((List.range' 0 2).map fun k => entryAt d (slotIn m c k)).filter (·.listed) = [] := by
    rw [List.filter_eq_nil_iff]
    intro e he
    obtain ⟨k, hk, rfl⟩ := List.mem_map.mp he
    rw [hdots k hk]
    decide
  have hall : ((List.range' 2 files.length).map fun k => entryAt d (slotIn m c k)).filter
      (·.listed) = (List.range' 2 files.length).map fun k => entryAt d (slotIn m c k) := by
    rw [List.filter_eq_self]
    intro e he
    obtain ⟨k, hk, rfl⟩ := List.mem_map.mp he
    rw [List.mem_range'_1] at hk
    obtain ⟨j, rfl⟩ : ∃ j, k = 2 + j := ⟨k - 2, by omega⟩
    exact (hfile j (by omega)).1
  rw [← List.range'_append_1 (s := 0), List.map_append, List.filter_append, hnone, List.nil_append,
    Nat.zero_add, hall, List.map_map, List.map_map]
  refine List.ext_getElem (by simp) fun j hj hj' => ?_
  rw [List.length_map] at hj'
  rw [List.getElem_map, List.getElem_map, List.getElem_range', Nat.one_mul]
  exact (hfile j hj').2

end DirHolds

/-- The listing of the directory: its files, in order. -/
theorem DirHolds.list {st : Driver} {d : Disk} (hv : st.mount.Valid)
    {files : List (CString × ℕ)} (h : DirHolds st.mount d st.currentDirCluster files) {fuel : ℕ}
    (hfuel : loopBound < fuel) {max : ℤ} (hmax : files.length < max) :
    ∃ entries st', (fatList fuel st max).Returns d ((files.length, entries), st') [] ∧
      entries.map (fun x => (x.name, x.size)) =
        files.map fun f => (f.1.chars.map kToupper, UInt32.ofNat f.2) := by
  obtain ⟨n, hn, hscan⟩ := h.scan hv (st.fatBuf .list) (Nat.zero_add _) (Nat.zero_le _)
  have hreports := h.reports
  have hlen := congrArg List.length hreports
  rw [List.length_map, List.length_map, List.length_map] at hlen
  have hfuel' : n < fuel := by
    have := st.mount.spc_lt
    have : 256 ≤ loopBound := by decide
    omega
  rw [← loadedTable_eq hv, Nat.mul_zero, Nat.sub_zero] at hscan
  obtain ⟨st', hlist⟩ := fatList_of_scan hv.initialized hfuel' max
    (by rw [hlen]; exact hmax) hscan
  rw [List.length_map, hlen] at hlist
  exact ⟨_, st', hlist, hreports⟩

/-! ## A directory just made -/

/-- A valid name is not `..`. -/
theorem Valid83.not_up {name : CString} (hname : Valid83 name) : name.chars ≠ [0x2E, 0x2E] := by
  intro hup
  exact hname.head_ne_dot (by rw [hup]; rfl)

/-- Behind the first sector of a cluster every record reads as free. -/
def EmptyBehind (m : Mount) (d : Disk) (c : ℕ) : Prop :=
  ∀ k, 1 ≤ k → k < m.spc → ∀ i < 16, ((d (m.clusterLba c k)).entry i).isEnd = true

section NewDir

variable {m : Mount} {d' : Disk} {c parent : ℕ} (hv : m.Valid) (hok : DataCluster m c)
  (hend : EndMark (fatAt m d' c)) (hsector : d' (m.clusterLba c 0) = newDirSector c parent)
include hsector

/-- The records of a new directory's first sector. -/
theorem entryAt_firstSector {k : ℕ} (hk : k < 16) :
    entryAt d' (slotIn m c k) = (newDirSector c parent).entry k := by
  rw [entryAt, slotIn, Nat.div_eq_of_lt hk, Nat.mod_eq_of_lt hk, hsector]

/-- Behind the two dot records the first sector is free. Every slot of the cluster is, when
the other sectors are. -/
theorem slots_free_iff :
    (∀ k, 2 ≤ k → k < 16 * m.spc → (entryAt d' (slotIn m c k)).isEnd = true) ↔
      EmptyBehind m d' c := by
  constructor
  · intro h k hk hlt i hi
    rw [← DirHolds.entryAt_slotIn hi]
    exact h _ (by omega) (by omega)
  · intro h k hk hlt
    by_cases hfirst : k < 16
    · rw [entryAt_firstSector hsector hfirst]
      exact (newDirSector_flags c parent k).2.1.mpr hk
    · exact h (k / 16) (by omega) (by omega) (k % 16) (Nat.mod_lt k (by decide))

include hv hok hend

/-- A new directory whose other sectors are free holds no file yet. -/
theorem dirHolds_newDir (hclear : EmptyBehind m d' c) : DirHolds m d' c [] where
  chain := .last hok hend
  dots := by
    intro k hk
    rw [entryAt_firstSector hsector (by omega), entry_newDirSector]
    by_cases h0 : k = 0
    · rw [if_pos h0]
      exact ⟨1, c, by decide, rfl⟩
    · have h1 : k = 1 := by omega
      rw [if_neg h0, if_pos h1]
      exact ⟨2, parent, by decide, rfl⟩
  valid := fun f hf => absurd hf List.not_mem_nil
  stored := fun j f hf => by
    rw [List.getElem?_nil] at hf
    exact nomatch hf
  ended := (slots_free_iff hsector).mpr hclear
  fits := by
    have := hv.spc_pos
    rw [List.length_nil]
    omega

end NewDir

/-- The directory made under `name` in cluster `c` by a call that left `st'` and `d'` is
empty, can be entered when its name fits behind the path, and then lists what is written
into it, in order. -/
structure NewDirListed (st' : Driver) (d' : Disk) (name : CString) (c : ℕ) : Prop where
  empty : ∀ k, 2 ≤ k → k < 16 * st'.mount.spc →
    (entryAt d' (slotIn st'.mount c k)).isEnd = true
  entered : (cdPath st'.currentPath name.chars).length < 256 → ∀ fuel, loopBound < fuel →
    ∃ st'', (fatCd fuel st' name).Returns d' (0, st'') []
  lists : ∀ fuel st'' written, (fatCd fuel st' name).Returns d' (0, st'') written →
    ∀ files s, Writes ⟨st'', applyWrites written d'⟩ files s →
      (files.Pairwise fun f g => Distinct f.1 g.1) →
      ∀ fuel' max, loopBound < fuel' → (files.length : ℤ) < max →
        ∃ entries last, (fatList fuel' s.driver max).Returns s.disk
          ((files.length, entries), last) [] ∧
          entries.map (fun x => (x.name, x.size)) =
            files.map fun f => (f.1.chars.map kToupper, UInt32.ofNat f.2)

section Listed

variable {st st' : Driver} {d : Disk} (hready : Ready st d) {name : CString} {fuel : ℕ}
  {writes : List (ℕ × Sector)}
  (hsupplies : Supplies st.mount.totalClusters (DataCluster st.mount)
    (loaded st.mount d (st.fatBuf .mkdir)) 1)
  (h : (fatMkdir fuel st name).Returns d (0, st') writes)
  (hname : Valid83 name) (hnew : NameFree st.mount d st.currentDirCluster name)
include hready hsupplies h hname hnew

/-- Changing to a new directory enters the cluster that was taken for it. -/
theorem entered_newDir {fuel' : ℕ} {st'' : Driver} {written : List (ℕ × Sector)}
    (hcd : (fatCd fuel' st' name).Returns (applyWrites writes d) (0, st'') written) :
    written = [] ∧ st''.mount = st.mount ∧ st''.currentDirCluster = nextFree st d .mkdir := by
  have hroom := room_of_fatMkdir hready hsupplies h
  obtain ⟨hsound, hcwd⟩ := fatMkdir_sound hready hroom h
  obtain ⟨fatBuf, rfl, ⟨hfailed, -⟩ | ⟨c, k, loc, a, -, rfl, hok, -, hunused, -, hcreated, -⟩⟩ :=
    fatMkdir_created hready hroom h
  · exact absurd hfailed (by decide)
  have hwalk : Walks (st.keepBuf .mkdir fatBuf).mount (applyWrites writes d)
      (st.keepBuf .mkdir fatBuf).currentDirCluster := hsound.walks hcwd
  obtain ⟨rfl, ⟨hup, -⟩ | ⟨hfailed, -⟩ | ⟨loc', _, -, hnamed, -, rfl⟩⟩ := fatCd_cases hwalk hcd
  · exact absurd hup hname.not_up
  · exact absurd hfailed (by decide)
  · obtain rfl := named_dir_created hready.wellFormed hready.cwd hcreated hunused hnew hnamed
    refine ⟨rfl, rfl, ?_⟩
    show (entryAt (applyWrites writes d) loc').firstCluster.toNat = _
    rw [hcreated.entry, firstCluster_newEntry name 0x10 (hok.lt.trans (by decide)) 0]

/-- **A new directory is empty, and lists what is written into it, exactly when the cluster
it takes reads as free behind its first sector.** -/
theorem newDirListed_iff :
    NewDirListed st' (applyWrites writes d) name (nextFree st d .mkdir) ↔
      EmptyBehind st.mount d (nextFree st d .mkdir) := by
  have hv := hready.wellFormed.valid
  have hroom := room_of_fatMkdir hready hsupplies h
  obtain ⟨hstorable, hfits⟩ := hname.fits
  have hmade := madeEntered_iff hready hsupplies h hstorable hname.not_up hnew
  have hcd := fun {fuel' st'' written} =>
    @entered_newDir _ _ _ hready _ _ _ hsupplies h hname hnew fuel' st'' written
  obtain ⟨fatBuf, hst', ⟨hfailed, -⟩ |
    ⟨c, k, loc, a, -, hnext, hok, -, -, -, -, hend, hsector, hkeep⟩⟩ :=
    fatMkdir_created hready hroom h
  · exact absurd hfailed (by decide)
  rw [hnext] at hcd ⊢
  have hbehind : EmptyBehind st.mount (applyWrites writes d) c ↔ EmptyBehind st.mount d c := by
    refine forall₃_congr fun k hk hlt => ?_
    rw [hkeep k hk hlt]
  have hmount : st'.mount = st.mount := by rw [hst']; rfl
  have hpath : st'.currentPath = st.currentPath := by rw [hst']; rfl
  constructor
  · intro hlisted
    refine hbehind.mp ((slots_free_iff hsector).mp ?_)
    rw [← hmount]
    exact hlisted.empty
  · intro hclear
    have hholds := dirHolds_newDir hv hok hend hsector (hbehind.mpr hclear)
    refine ⟨?_, ?_, ?_⟩
    · rw [hmount]
      exact hholds.ended
    · intro hshort fuel' hfuel'
      rw [hpath] at hshort
      obtain ⟨-, -, -, hcd⟩ := hmade.mpr ⟨hfits, hshort⟩
      obtain ⟨st'', hcd, -⟩ := hcd fuel' hfuel'
      exact ⟨st'', hcd⟩
    · intro fuel' st'' written hcd' files s hwrites hdistinct fuel'' max hfuel'' hmax
      obtain ⟨rfl, hmount'', hcwd''⟩ := hcd hcd'
      have hholds'' : DirHolds st''.mount (applyWrites writes d) st''.currentDirCluster [] := by
        rw [hmount'', hcwd'']
        exact hholds
      obtain ⟨hkept, -, hfiles⟩ := hholds''.writes (hmount'' ▸ hv) hwrites hdistinct
      exact hfiles.list (hkept ▸ hmount'' ▸ hv) hfuel'' hmax

end Listed

/-! ## Clusters of several sectors -/

/-- The small geometry with clusters of two sectors. -/
def wideMount : Mount := mountOf { smallMount.bpb with sectorsPerCluster := 2 }

theorem valid_wideMount : wideMount.Valid where
  mounted := rfl
  bytesPerSector := rfl
  spc_pos := by decide
  fatCount_pos := by decide
  reserved_pos := by decide

/-- A blank volume but for the second sector of its first cluster, which is filled
with the letter `A`. -/
def leftoverDisk : Disk := Function.update blank 4 (.ofBytes fun _ => 0x41)

theorem leftoverDisk_below : ∀ lba < wideMount.dataStart, leftoverDisk lba = blank lba := by
  intro lba hlba
  have hlt : lba < 3 := hlba
  rw [leftoverDisk, Function.update_of_ne (by omega)]

theorem ready_leftoverDisk : Ready (freshDriver wideMount) leftoverDisk :=
  ⟨wellFormed_of_blank_below valid_wideMount leftoverDisk_below, .root⟩

theorem nameFree_leftoverDisk (name : CString) : NameFree wideMount leftoverDisk 0 name :=
  fun n loc hlive =>
    absurd hlive (not_liveAt_root_of_blank_below valid_wideMount leftoverDisk_below n loc)

/-- **When a new directory is empty.** On a well-formed volume, a directory made under a
new valid name is empty and lists exactly what is written into it, if and only if the
cluster it takes reads as free behind its first sector. -/
theorem newDir_listed_iff {st st' : Driver} {d : Disk} (hready : Ready st d) {name : CString}
    (hname : Valid83 name) (hnew : NameFree st.mount d st.currentDirCluster name)
    (hsupplies : Supplies st.mount.totalClusters (DataCluster st.mount)
      (loaded st.mount d (st.fatBuf .mkdir)) 1) {fuel : ℕ} {writes : List (ℕ × Sector)}
    (h : (fatMkdir fuel st name).Returns d (0, st') writes) :
    NewDirListed st' (applyWrites writes d) name (nextFree st d .mkdir) ↔
      EmptyBehind st.mount d (nextFree st d .mkdir) :=
  newDirListed_iff hready hsupplies h hname hnew

/-- With two sectors to a cluster, the directory `A` is empty and lists what is written into it when
its cluster was blank, and not when the second sector was filled. -/
theorem newDir_listed_iff_wide :
    (∃ st' writes, (fatMkdir 4 (freshDriver wideMount) nameA).Returns blank (0, st') writes ∧
      NewDirListed st' (applyWrites writes blank) nameA 2) ∧
    ∃ st' writes, (fatMkdir 4 (freshDriver wideMount) nameA).Returns leftoverDisk (0, st') writes ∧
      ¬ NewDirListed st' (applyWrites writes leftoverDisk) nameA 2 := by
  have hmade : ((fatMkdir 4 (freshDriver wideMount) nameA).exec blank).1.map Prod.fst = .ok 0 ∧
      ((fatMkdir 4 (freshDriver wideMount) nameA).exec leftoverDisk).1.map Prod.fst = .ok 0 := by
    decide +kernel
  have hnext : nextFree (freshDriver wideMount) blank .mkdir = 2 ∧
      nextFree (freshDriver wideMount) leftoverDisk .mkdir = 2 := by
    decide +kernel
  have hfilled : ((leftoverDisk 4).entry 0).isEnd = false := by decide +kernel
  obtain ⟨made, hblank⟩ := returns_of_exec hmade.1
  obtain ⟨made', hleftover⟩ := returns_of_exec hmade.2
  have hlisted := newDir_listed_iff (ready_blank valid_wideMount) valid83_nameA
    (fun n loc hlive => absurd hlive (not_liveAt_blank _ _ n loc))
    (supplies_of_free (c := 2) (by decide) (fatAt_blank _ _) _) hblank
  have hlisted' := newDir_listed_iff ready_leftoverDisk valid83_nameA (nameFree_leftoverDisk nameA)
    (supplies_of_free (c := 2) (by decide) (by decide +kernel) _) hleftover
  rw [hnext.1] at hlisted
  rw [hnext.2] at hlisted'
  refine ⟨⟨made, _, hblank, hlisted.mpr fun k _ _ i _ => ?_⟩, made', _, hleftover, fun h => ?_⟩
  · exact (entryAt_blank (_, i)).1
  · have hend := hlisted'.mp h 1 le_rfl (by decide) 0 (by decide)
    exact absurd hend (Bool.eq_false_iff.mp hfilled)

/-- The names `A` to `N`. -/
def letter (k : Fin 14) : CString := ⟨[UInt8.ofNat (0x41 + k.val)], by revert k; decide +kernel⟩

/-- The directory `A` is made on that volume and entered, and fourteen empty files are
written into it. -/
def fullDir : System := System.after 4 ⟨freshDriver wideMount, leftoverDisk⟩
  ([.mkdir nameA, .cd nameA] ++ (List.finRange 14).map fun k => .write (letter k) (fun _ => 0) 0)

/-- **A new directory shows what its cluster held before.** On that volume a directory `A`
is made; its seventeenth slot is in use. With fourteen files in it, thirty are listed. -/
theorem newDir_not_empty_leftoverDisk :
    Ready (freshDriver wideMount) leftoverDisk ∧ Valid83 nameA ∧
    NameFree wideMount leftoverDisk 0 nameA ∧
    ((fatMkdir 4 (freshDriver wideMount) nameA).exec leftoverDisk).1.map Prod.fst = .ok 0 ∧
    (entryAt (System.next 4 ⟨freshDriver wideMount, leftoverDisk⟩ (.mkdir nameA)).disk
      (slotIn wideMount 2 16)).isEnd = false ∧
    ((fatList 4 fullDir.driver 100).exec fullDir.disk).1.map (·.1.1) = .ok 30 := by
  refine ⟨ready_leftoverDisk, valid83_nameA, nameFree_leftoverDisk nameA, ?_, ?_, ?_⟩
  · decide +kernel
  · decide +kernel
  · decide +kernel

end MasterOS.Fat
