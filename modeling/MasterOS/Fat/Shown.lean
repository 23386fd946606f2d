/-
# What a listing shows

`fat_list` stops at the end of the directory or when the caller's array is full. A listing
that does not fill the array is the whole directory: every name of the store's directory
once, with the size of the file it stands for or the directory it leads to. Only names that
begin with a dot may be left out, which the driver never makes.
-/

import MasterOS.Fat.Errors
import MasterOS.Fat.NewDirs
import MasterOS.Fat.Serves

namespace MasterOS.Fat

open MasterOS.Device MasterOS.Device.Prog MasterOS.Math

/-! ## A listing with room left -/

/-- The entries so far only grow. -/
theorem listSlots_length_le (max : ℤ) (sector : Sector) (l : List ℕ) (entries : List Fat12Entry) :
    entries.length ≤ (listSlots max sector l entries).2.length := by
  induction l generalizing entries with
  | nil => exact le_rfl
  | cons i rest ih =>
      rw [listSlots]
      dsimp only
      split_ifs
      · exact le_rfl
      · exact ih entries
      · exact ih entries
      · exact ih entries
      · exact le_trans (by simp) (ih (entries ++ [(sector.entry i).report]))
      · exact le_rfl

/-- A sector whose entries leave room is listed alike with more room. -/
theorem listSlots_more {max max' : ℤ} (hle : max ≤ max') {sector : Sector} {l : List ℕ}
    {entries : List Fat12Entry} (hroom : ((listSlots max sector l entries).2.length : ℤ) < max) :
    listSlots max' sector l entries = listSlots max sector l entries := by
  induction l generalizing entries with
  | nil => rfl
  | cons i rest ih =>
      have hgrow := listSlots_length_le max sector (i :: rest) entries
      have hmax : (entries.length : ℤ) < max := by omega
      have hmax' : (entries.length : ℤ) < max' := by omega
      rw [listSlots, if_pos hmax] at hroom
      rw [listSlots, if_pos hmax', listSlots, if_pos hmax]
      dsimp only at hroom ⊢
      split_ifs at hroom ⊢
      · rfl
      · exact ih hroom
      · exact ih hroom
      · exact ih hroom
      · exact ih hroom

section Sectors

variable {m : Mount} {dirc : ℕ} {fatBuf : FatBuf}

theorem listSectors_length_le {max : ℤ} {fuel s : ℕ} {d : Disk} {entries out : List Fat12Entry}
    {writes : List (ℕ × Sector)}
    (h : (listSectors m dirc fatBuf max fuel s entries).Returns d out writes) :
    entries.length ≤ out.length := by
  induction fuel generalizing s d entries writes with
  | zero => cases (Prod.mk.inj h).1
  | succ fuel ih =>
      rw [listSectors] at h
      by_cases hmax : (entries.length : ℤ) < max
      · rw [if_pos hmax] at h
        obtain ⟨found, first, second, -, hrest, -⟩ := returns_bind_iff.mp h
        cases found with
        | error code =>
            obtain rfl : entries = out := Except.ok.inj (Prod.mk.inj hrest).1
            exact le_rfl
        | ok sector =>
            have hgrow := listSlots_length_le max sector (List.range 16) entries
            dsimp only at hrest
            rcases hlist : listSlots max sector (List.range 16) entries with ⟨_ | _, more⟩
            · rw [hlist] at hrest hgrow
              exact le_trans hgrow (ih hrest)
            · rw [hlist] at hrest hgrow
              obtain rfl : more = out := Except.ok.inj (Prod.mk.inj hrest).1
              exact hgrow
      · rw [if_neg hmax] at h
        obtain rfl : entries = out := Except.ok.inj (Prod.mk.inj h).1
        exact le_rfl

/-- A listing that leaves room is the same with more room and more fuel. -/
theorem listSectors_more {max max' : ℤ} (hle : max ≤ max') {fuel fuel' : ℕ} (hfuel : fuel ≤ fuel')
    {s : ℕ} {d : Disk} {entries out : List Fat12Entry} {writes : List (ℕ × Sector)}
    (h : (listSectors m dirc fatBuf max fuel s entries).Returns d out writes)
    (hroom : (out.length : ℤ) < max) :
    (listSectors m dirc fatBuf max' fuel' s entries).Returns d out writes := by
  induction fuel generalizing fuel' s entries writes d with
  | zero => cases (Prod.mk.inj h).1
  | succ fuel ih =>
      obtain ⟨fuel', rfl⟩ : ∃ k, fuel' = k + 1 := ⟨fuel' - 1, by omega⟩
      have hgrow := listSectors_length_le h
      have hmax : (entries.length : ℤ) < max := by omega
      rw [listSectors, if_pos hmax] at h
      rw [listSectors, if_pos (lt_of_lt_of_le hmax hle)]
      obtain ⟨found, first, second, hread, hrest, rfl⟩ := returns_bind_iff.mp h
      refine returns_bind_iff.mpr ⟨found, first, second, hread, ?_, rfl⟩
      cases found with
      | error code => exact hrest
      | ok sector =>
          have hmore := @listSlots_more _ _ hle sector (List.range 16) entries
          dsimp only at hrest ⊢
          rcases hlist : listSlots max sector (List.range 16) entries with ⟨_ | _, more⟩
          · rw [hlist] at hrest hmore
            have hlen := listSectors_length_le hrest
            rw [hmore (by dsimp only; omega)]
            exact ih (by omega) hrest
          · rw [hlist] at hrest hmore
            obtain rfl : more = out := Except.ok.inj (Prod.mk.inj hrest).1
            rw [hmore hroom]
            exact hrest

end Sectors

/-! ## The records of a directory, by location -/

/-- The slots of a directory before its end, read in order. -/
structure Slots (m : Mount) (next : ℕ → ℕ) (d : Disk) (dirc s : ℕ) (locs : List Loc) : Prop where
  slot : ∀ i loc, locs[i]? = some loc → slotAt m next dirc (16 * s + i) = some loc
  before : ∀ loc ∈ locs, (entryAt d loc).isEnd = false
  ended : ∀ loc, slotAt m next dirc (16 * s + locs.length) = some loc → (entryAt d loc).isEnd = true

theorem slotAt_of_dirLba {m : Mount} {next : ℕ → ℕ} {dirc s i : ℕ} (hi : i < 16) :
    slotAt m next dirc (16 * s + i) = (dirLba m next dirc s).map fun lba => (lba, i) := by
  rw [slotAt, show (16 * s + i) / 16 = s by omega, show (16 * s + i) % 16 = i by omega]

/-- A directory whose sectors can be read in order is scanned to its end. -/
theorem Readable.exists_scan {m : Mount} {fatBuf : FatBuf} {dirc : ℕ}
    (hread : Readable m fatBuf dirc) (d : Disk) {s left : ℕ} (hs : s + left = 2 ^ 21) :
    ∃ n locs, DirScan m dirc fatBuf d s n (locs.map (entryAt d)) ∧ n ≤ left ∧
      Slots m (fatNextCluster fatBuf) d dirc s locs := by
  induction left generalizing s with
  | zero =>
      have hnone := hread.ends s (by omega)
      have hreads := hread.reads d s
      rw [hnone] at hreads
      refine ⟨0, [], .past hreads, le_rfl, fun i loc h => (by cases h), fun loc h => (by cases h),
        fun loc h => ?_⟩
      rw [List.length_nil, slotAt_of_dirLba (by decide), hnone] at h
      cases h
  | succ left ih =>
      have hreads := hread.reads d s
      cases hlba : dirLba m (fatNextCluster fatBuf) dirc s with
      | none =>
          rw [hlba] at hreads
          refine ⟨0, [], .past hreads, Nat.zero_le _, fun i loc h => (by cases h),
            fun loc h => (by cases h), fun loc h => ?_⟩
          rw [List.length_nil, slotAt_of_dirLba (by decide), hlba] at h
          cases h
      | some lba =>
          rw [hlba] at hreads
          have hslot {i : ℕ} (hi : i < 16) :
              slotAt m (fatNextCluster fatBuf) dirc (16 * s + i) = some (lba, i) := by
            rw [slotAt_of_dirLba hi, hlba, Option.map_some]
          -- the locations of the first slots of the sector
          have hfirst (k i : ℕ) (loc : Loc) (hk : k ≤ 16)
              (h : ((List.range k).map fun j => (lba, j))[i]? = some loc) :
              i < k ∧ slotAt m (fatNextCluster fatBuf) dirc (16 * s + i) = some loc := by
            rw [List.getElem?_map] at h
            by_cases hi : i < k
            · rw [List.getElem?_range hi, Option.map_some] at h
              exact ⟨hi, (hslot (by omega)).trans h⟩
            · rw [List.getElem?_eq_none (by rw [List.length_range]; omega)] at h
              cases h
          by_cases hend : ∃ i, i < 16 ∧ ((d lba).entry i).isEnd = true
          · classical
            obtain ⟨hi, hisEnd⟩ := Nat.find_spec hend
            have hbefore (j : ℕ) (hj : j < Nat.find hend) : ((d lba).entry j).isEnd = false := by
              have hnot := Nat.find_min hend hj
              rw [not_and] at hnot
              exact Bool.eq_false_iff.mpr (hnot (lt_trans hj hi))
            refine ⟨0, (List.range (Nat.find hend)).map fun j => (lba, j), ?_, Nat.zero_le _,
              fun i loc h => (hfirst _ i loc (by omega) h).2, fun loc hloc => ?_, fun loc h => ?_⟩
            · rw [List.map_map]
              exact .ended hreads hi hisEnd hbefore
            · obtain ⟨j, hj, rfl⟩ := List.mem_map.mp hloc
              exact hbefore j (List.mem_range.mp hj)
            · rw [List.length_map, List.length_range, hslot hi] at h
              rw [← Option.some.inj h]
              exact hisEnd
          · have hall (j : ℕ) (hj : j < 16) : ((d lba).entry j).isEnd = false :=
              Bool.eq_false_iff.mpr fun hisEnd => hend ⟨j, hj, hisEnd⟩
            obtain ⟨n, locs, hscan, hn, hrest⟩ := ih (s := s + 1) (by omega)
            have hmod : (s + 1) % 2 ^ 32 = s + 1 := Nat.mod_eq_of_lt (by omega)
            have hnext := DirScan.next hreads hall (hmod.symm ▸ hscan)
            have hlen : ((List.range 16).map fun j => (lba, j)).length = 16 := by simp
            refine ⟨n + 1, (List.range 16).map (fun j => (lba, j)) ++ locs, ?_, by omega,
              fun i loc h => ?_, fun loc hloc => ?_, fun loc h => ?_⟩
            · rw [List.map_append, List.map_map]
              exact hnext
            · by_cases hi : i < 16
              · rw [List.getElem?_append_left (by omega)] at h
                exact (hfirst 16 i loc le_rfl h).2
              · rw [List.getElem?_append_right (by omega), hlen] at h
                have hloc := hrest.slot (i - 16) loc h
                rwa [show 16 * (s + 1) + (i - 16) = 16 * s + i by omega] at hloc
            · rcases List.mem_append.mp hloc with hloc | hloc
              · obtain ⟨j, hj, rfl⟩ := List.mem_map.mp hloc
                exact hall j (List.mem_range.mp hj)
              · exact hrest.before loc hloc
            · rw [List.length_append, hlen, show 16 * s + (16 + locs.length) =
                16 * (s + 1) + locs.length by omega] at h
              exact hrest.ended loc h

section Slots

variable {m : Mount} {d : Disk} (hs : Sound m d) {dirc : ℕ} (hreach : Reach m d dirc)
  {locs : List Loc} (h : Slots m (fatAt m d) d dirc 0 locs)

include h in
/-- The live records before the end of a directory are those of the directory. -/
theorem Slots.liveAt_of_mem {loc : Loc} (hloc : loc ∈ locs) (hlive : (entryAt d loc).live = true) :
    ∃ n, LiveAt m d dirc n loc := by
  obtain ⟨n, hn, rfl⟩ := List.mem_iff_getElem.mp hloc
  have hslot := h.slot n _ (List.getElem?_eq_getElem hn)
  rw [Nat.mul_zero, Nat.zero_add] at hslot
  refine ⟨n, hslot, hlive, fun k hk x hx hend => ?_⟩
  have hat := h.slot k _ (List.getElem?_eq_getElem (lt_trans hk hn))
  rw [Nat.mul_zero, Nat.zero_add] at hat
  obtain rfl : locs[k] = x := Option.some.inj (hat.symm.trans hx)
  exact absurd ((h.before _ (List.getElem_mem _)).symm.trans hend) (by decide)

include hs hreach h

theorem Slots.mem_of_liveAt {n : ℕ} {loc : Loc} (hlive : LiveAt m d dirc n loc) : loc ∈ locs := by
  by_cases hn : n < locs.length
  · have hslot := h.slot n _ (List.getElem?_eq_getElem hn)
    rw [Nat.mul_zero, Nat.zero_add] at hslot
    obtain rfl : locs[n] = loc := Option.some.inj (hslot.symm.trans hlive.1)
    exact List.getElem_mem _
  · -- behind the end nothing is live
    have hended := h.ended
    rw [Nat.mul_zero, Nat.zero_add] at hended
    cases hslot : slotAt m (fatAt m d) dirc locs.length with
    | none =>
        have hnone := dirLba_eq_none_mono (hs.dirOk hreach) (Option.map_eq_none_iff.mp hslot)
          (Nat.div_le_div_right (not_lt.mp hn) : locs.length / 16 ≤ n / 16)
        have hsome := (slotAt_eq_some_iff.mp hlive.1).1
        rw [hnone] at hsome
        cases hsome
    | some x =>
        have hend := hended x hslot
        rcases Nat.lt_or_ge locs.length n with hlt | hge
        · exact absurd hend (hlive.2.2 _ hlt x hslot)
        · obtain rfl : n = locs.length := by omega
          obtain rfl : x = loc := Option.some.inj (hslot.symm.trans hlive.1)
          exact absurd hend (entryKind.not_isEnd_of_live _ hlive.2.1)

theorem Slots.nodup : locs.Nodup := by
  rw [List.nodup_iff_injective_getElem]
  rintro ⟨i, hi⟩ ⟨j, hj⟩ heq
  have hslot {k : ℕ} (hk : k < locs.length) : slotAt m (fatAt m d) dirc k = some locs[k] := by
    have hat := h.slot k _ (List.getElem?_eq_getElem hk)
    rwa [Nat.mul_zero, Nat.zero_add] at hat
  have hsame := hslot hj
  rw [← show locs[i] = locs[j] from heq] at hsame
  exact Fin.ext (hs.slotAt_inj hreach hreach (hslot hi) hsame).2

end Slots

/-! ## The listing of a store's directory -/

/-- The name an entry of a listing shows, as the driver compares it. -/
def Fat12Entry.key (x : Fat12Entry) : List UInt8 := (cstr x.name).map kToupper

/-- What an entry of a listing says of what its name stands for. -/
def Fat12Entry.Describes (x : Fat12Entry) : Node ℕ UInt8 → Prop
  | .file content => x.isDir = 0 ∧ x.size.toNat = content.length
  | .dir id => x.isDir = 1 ∧ x.firstCluster.toNat = id

/-- A listing of the current directory of a store: every name once. Names that begin with a
dot may be missing. -/
structure Lists (F : Files) (entries : List Fat12Entry) : Prop where
  nodup : (entries.map Fat12Entry.key).Nodup
  node : ∀ x ∈ entries, ∃ node, F.here x.key = some node ∧ x.Describes node
  all : ∀ name node, name.head? ≠ some 0x2E → F.here name = some node →
    ∃ x ∈ entries, x.key = name

/-- A record whose name shows no dot in front does not start with one. -/
theorem startsWithDot_of_key {e : RawDirEntry} (hkey : e.key.head? ≠ some 0x2E) :
    e.startsWithDot = false := by
  by_contra hdot
  have hzero : e.name 0 = 0x2E := by simpa [RawDirEntry.startsWithDot] using hdot
  have hmake : ∃ rest, makeName e.name e.ext = 0x2E :: rest := by
    unfold makeName
    simp only [List.ofFn_succ, hzero]
    split_ifs <;> exact ⟨_, rfl⟩
  obtain ⟨rest, hrest⟩ := hmake
  refine hkey ?_
  rw [RawDirEntry.key, RawDirEntry.shown, hrest]
  rfl

theorem listed_iff_live {e : RawDirEntry} (hend : e.isEnd = false) :
    e.listed = true ↔ e.live = true ∧ e.startsWithDot = false := by
  unfold RawDirEntry.listed RawDirEntry.live
  cases e.isDeleted <;> cases e.isLabel <;> cases e.isDir <;> cases e.startsWithDot <;>
    simp [hend]

theorem describes_report {m : Mount} {d : Disk} {e : RawDirEntry} {node : Node ℕ UInt8}
    (h : StandsFor m d e node) : e.report.Describes node := by
  cases node with
  | file content => exact ⟨by simp [RawDirEntry.report, h.1], h.2.1⟩
  | dir id => exact ⟨by simp [RawDirEntry.report, h.1], h.2⟩

/-- A listing changes nothing but its buffer, and counts what it reports. -/
theorem fatList_keeps {st st' : Driver} {d : Disk} (hready : Ready st d) {fuel : ℕ} {max r : ℤ}
    {entries : List Fat12Entry} {writes : List (ℕ × Sector)}
    (h : (fatList fuel st max).Returns d ((r, entries), st') writes) :
    writes = [] ∧ r = entries.length ∧ ∃ fatBuf, st' = st.keepBuf .list fatBuf := by
  have hsnd := (readOnly_fatList fuel st max).exec_snd d
  rw [Returns] at h
  rw [h] at hsnd
  rw [fatList, withFat_exec hready.sound.valid] at h
  obtain ⟨out, first, second, -, hrest, -⟩ := returns_bind_iff.mp h
  obtain ⟨hpair, rfl⟩ := Prod.mk.inj (Except.ok.inj (Prod.mk.inj hrest).1)
  obtain ⟨rfl, rfl⟩ := Prod.mk.inj hpair
  exact ⟨hsnd, rfl, _, rfl⟩

/-- A listing that leaves room reports the listed records of the directory, in order. -/
theorem fatList_entries {st st' : Driver} {d : Disk} (hready : Ready st d) {fuel : ℕ} {max r : ℤ}
    {entries : List Fat12Entry} {writes : List (ℕ × Sector)}
    (h : (fatList fuel st max).Returns d ((r, entries), st') writes)
    (hroom : (entries.length : ℤ) < max) :
    ∃ locs, Slots st.mount (fatAt st.mount d) d st.currentDirCluster 0 locs ∧
      entries = (locs.filter fun loc => (entryAt d loc).listed).map
        fun loc => (entryAt d loc).report := by
  have hv := hready.sound.valid
  have hkept := (hready.sound.walks hready.cwd).dirKept_loaded (st.fatBuf .list)
  obtain ⟨n, locs, hscan, hn, hslots⟩ := (hkept.dirOk.readable hv.usable).exists_scan d
    (show 0 + 2 ^ 21 = 2 ^ 21 from rfl)
  rw [Returns, fatList, withFat_exec hv] at h
  obtain ⟨out, first, second, hlist, hrest, -⟩ := returns_bind_iff.mp h
  obtain rfl : out = entries :=
    (Prod.mk.inj (Prod.mk.inj (Except.ok.inj (Prod.mk.inj hrest).1)).1).2
  refine ⟨locs, ⟨fun i loc hloc => ?_, hslots.before, fun loc hloc => ?_⟩, ?_⟩
  · rw [← hkept.slotAt]
    exact hslots.slot i loc hloc
  · rw [← hkept.slotAt] at hloc
    exact hslots.ended loc hloc
  · -- with room for every record the listing is the whole scan
    have hmore := listSectors_more (show max ≤ max + (locs.length : ℤ) + 1 by omega)
      (show fuel ≤ fuel + 2 ^ 21 + 1 by omega) hlist hroom
    have hlen := List.length_filter_le (·.listed) (locs.map (entryAt d))
    rw [List.length_map] at hlen
    have hall := listSectors_of_scan hscan (show n < fuel + 2 ^ 21 + 1 by omega)
      (max + (locs.length : ℤ) + 1) [] (by rw [List.length_nil]; push_cast; omega)
    rw [(hmore.unique hall).1, List.nil_append, List.filter_map, List.map_map]
    rfl

/-- **A listing that leaves room is the store's directory.** -/
theorem Stands.list {st st' : Driver} {d : Disk} {F : Files} (hF : Stands ⟨st, d⟩ F) {fuel : ℕ}
    {max r : ℤ} {entries : List Fat12Entry} {writes : List (ℕ × Sector)}
    (h : (fatList fuel st max).Returns d ((r, entries), st') writes)
    (hroom : (entries.length : ℤ) < max) : Lists F entries := by
  have hready : Ready st d := hF.ready
  have hs := hready.sound
  obtain ⟨locs, hslots, rfl⟩ := fatList_entries hready h hroom
  have hlive {loc : Loc} (hloc : loc ∈ locs.filter fun loc => (entryAt d loc).listed) :
      ∃ n, LiveAt st.mount d st.currentDirCluster n loc := by
    obtain ⟨hmem, hlisted⟩ := List.mem_filter.mp hloc
    exact hslots.liveAt_of_mem hmem ((listed_iff_live (hslots.before loc hmem)).mp hlisted).1
  constructor
  case nodup =>
    rw [List.map_map]
    refine List.Nodup.map_on (fun x hx y hy hkey => ?_)
      ((hslots.nodup hs hready.cwd).filter _)
    obtain ⟨n, hlivex⟩ := hlive hx
    obtain ⟨k, hlivey⟩ := hlive hy
    exact hF.only hlivex hlivey hkey
  case node =>
    intro x hx
    obtain ⟨loc, hloc, rfl⟩ := List.mem_map.mp hx
    obtain ⟨n, hliveAt⟩ := hlive hloc
    obtain ⟨node, hnode, hstands⟩ := hF.here hliveAt
    exact ⟨node, hnode, describes_report hstands⟩
  case all =>
    intro name node hname hnode
    obtain ⟨n, loc, hliveAt, rfl, -⟩ := hF.of_here hnode
    have hmem := hslots.mem_of_liveAt hs hready.cwd hliveAt
    have hlisted := (listed_iff_live (hslots.before loc hmem)).mpr
      ⟨hliveAt.2.1, startsWithDot_of_key hname⟩
    exact ⟨_, List.mem_map.mpr ⟨loc, List.mem_filter.mpr ⟨hmem, hlisted⟩, rfl⟩, rfl⟩

/-- **What is listed after a run.** A listing that leaves room shows the directory of a store
that answers the run's requests as they were answered. -/
theorem listing_after_run {s s' : System} {F : Files} (hF : Stands s F)
    {labels : List (Request (List UInt8) UInt8 × Reply UInt8)} (htrace : Trace Served s labels s')
    {fuel : ℕ} {max r : ℤ} {entries : List Fat12Entry} {st : Driver} {writes : List (ℕ × Sector)}
    (h : (fatList fuel s'.driver max).Returns s'.disk ((r, entries), st) writes)
    (hroom : (entries.length : ℤ) < max) :
    ∃ F', Trace Store.Step F labels F' ∧ Lists F' entries := by
  obtain ⟨F', hstore, hF'⟩ := simulates_store.trace hF htrace
  exact ⟨F', hstore, hF'.list h hroom⟩

/-- With room for every record a listing returns. -/
theorem exists_list {st : Driver} {d : Disk} (hready : Ready st d) : ∃ fuel max entries st',
    (fatList fuel st max).Returns d (((entries.length : ℤ), entries), st') [] ∧
      (entries.length : ℤ) < max := by
  have hv := hready.sound.valid
  have hkept := (hready.sound.walks hready.cwd).dirKept_loaded (st.fatBuf .list)
  obtain ⟨n, locs, hscan, -, -⟩ := (hkept.dirOk.readable hv.usable).exists_scan d
    (show 0 + 2 ^ 21 = 2 ^ 21 from rfl)
  rw [← loadedTable_eq hv] at hscan
  have hlen := List.length_filter_le (·.listed) (locs.map (entryAt d))
  rw [List.length_map] at hlen
  have hmax : (((locs.map (entryAt d)).filter (·.listed)).length : ℤ) < locs.length + 1 := by
    omega
  obtain ⟨st', h⟩ := fatList_of_scan hv.initialized (Nat.lt_succ_self n) _ hmax hscan
  exact ⟨_, _, _, st', h, by rw [List.length_map]; exact hmax⟩

/-- After a write of `A` to a blank volume a listing shows the store of `A`. -/
theorem listing_after_run_blank : ∃ s' fuel max entries st F',
    Trace Served blankSystem [(.write nameA.key [7], .done)] s' ∧
    (fatList fuel s'.driver max).Returns s'.disk (((entries.length : ℤ), entries), st) [] ∧
    Trace Store.Step emptyStore [(.write nameA.key [7], .done)] F' ∧ Lists F' entries := by
  have htrace := Trace.single served_oneFile
  obtain ⟨F', -, hF'⟩ := simulates_store.trace stands_blankSystem htrace
  obtain ⟨fuel, max, entries, st, h, hroom⟩ := exists_list hF'.ready
  obtain ⟨G, hstore, hlists⟩ := listing_after_run stands_blankSystem htrace h hroom
  exact ⟨oneFile, fuel, max, entries, st, G, htrace, h, hstore, hlists⟩

end MasterOS.Fat
