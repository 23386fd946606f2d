/-
# Where allocated clusters lie

The search for a free cluster runs up to a bound that is computed from the size of the
table alone. It goes beyond what the readers follow, beyond the entries that were
loaded, and beyond the sectors of the volume. As it takes the lowest free cluster
first, it leaves the good ones only when they run out: a call takes good clusters only
exactly when enough of them are free, or nothing else is.
-/

import MasterOS.Fat.Blank

namespace MasterOS.Fat

open MasterOS.Device MasterOS.Device.Prog MasterOS.Math

/-! ## First fit over a segment -/

/-- A segment supplies an allocation of `n` clusters: it has that many free ones, or
no other cluster the search goes through is free. -/
def Supplies (total : ℕ) (ok : ℕ → Prop) [DecidablePred ok] (fatBuf : FatBuf) (n : ℕ) : Prop :=
  n ≤ (freeIn ok (fatNextCluster fatBuf)).card ∨
    ∀ c, 2 ≤ c → c < total + 2 → fatNextCluster fatBuf c = 0 → ok c

section Window

variable {total : ℕ} {ok : ℕ → Prop} [DecidablePred ok] (hw : Window total ok)
include hw

/-- Taking a cluster of the segment leaves the segment one cluster less to supply. -/
theorem Window.supplies_takeCluster {fatBuf : FatBuf} {prev c n : ℕ}
    (hc : c ∈ freeIn ok (fatNextCluster fatBuf))
    (hprev : prev ≠ 0 → fatNextCluster fatBuf prev ≠ 0) :
    Supplies total ok (takeCluster fatBuf prev c) n ↔ Supplies total ok fatBuf (n + 1) := by
  obtain ⟨hok, hzero⟩ := hw.mem_freeIn.mp hc
  have h2 := hw.two_le c hok
  have hlt := hw.lt c hok
  have hpos := Finset.card_pos.mpr ⟨c, hc⟩
  unfold Supplies
  rw [hw.freeIn_takeCluster h2 hlt hprev, Finset.card_erase_of_mem hc]
  apply or_congr
  · omega
  · constructor
    · intro hall x hx2 hx hfree
      by_cases hxc : x = c
      · exact hxc ▸ hok
      · have hnot : ¬ (prev ≠ 0 ∧ x = prev) := fun h => hprev h.1 (h.2 ▸ hfree)
        apply hall x hx2 hx
        rw [fatNextCluster_takeCluster, if_neg hxc, if_neg hnot]
        exact hfree
    · intro hall x hx2 hx hfree
      rw [fatNextCluster_takeCluster, Nat.mod_eq_of_lt hlt] at hfree
      split_ifs at hfree
      · omega
      · exact hall x hx2 hx hfree

/-- **First fit stays in a segment exactly as long as the segment supplies it.** -/
theorem Window.clusters_ok_iff {n prev : ℕ} {fatBuf : FatBuf} {r : Chained}
    (hprev : prev ≠ 0 → fatNextCluster fatBuf prev ≠ 0)
    (halloc : allocChain total n prev fatBuf = .ok r) :
    (∀ c ∈ r.clusters, ok c) ↔ Supplies total ok fatBuf n := by
  induction n generalizing prev fatBuf r with
  | zero =>
      injection halloc with halloc
      subst halloc
      simp [Supplies]
  | succ n ih =>
      rcases allocChain_succ_eq_ok halloc with ⟨hfind, rfl⟩ | ⟨c, rest, hfind, hne, hrest, rfl⟩
      · have hnone := fatFindFreeCluster_eq_zero_iff.mp hfind
        constructor
        · intro _
          exact Or.inr fun c h2 hlt hfree => absurd hfree (hnone c h2 hlt)
        · intro _ c hc
          simp at hc
      · obtain ⟨h2, hlt, hfree, -⟩ := fatFindFreeCluster_pos hfind hne
        by_cases hok : ok c
        · have hmem := hw.mem_freeIn.mpr ⟨hok, hfree⟩
          have hself : fatNextCluster (takeCluster fatBuf prev c) c ≠ 0 := by
            rw [fatNextCluster_takeCluster, if_pos rfl]
            decide
          have htail := ih (fun _ => hself) hrest
          rw [← hw.supplies_takeCluster hmem hprev, ← htail]
          simp [hok]
        · -- the lowest free cluster is not in the segment, so no free one is
          constructor
          · intro hall
            exact absurd (hall c List.mem_cons_self) hok
          · intro hsupplies
            rcases hsupplies with hroom | hall
            · obtain ⟨x, hx⟩ := Finset.card_pos.mp (lt_of_lt_of_le (Nat.succ_pos n) hroom)
              have hmem := hw.find_mem hx
              rw [hfind] at hmem
              exact absurd (hw.mem_freeIn.mp hmem).1 hok
            · exact absurd (hall c h2 hlt hfree) hok

end Window

/-! ## The clusters of the volume -/

/-- The sectors of the volume, as `fat_get_total_kb` counts them. -/
def Mount.totalSectors (m : Mount) : ℕ :=
  if m.bpb.totalSectors16.toNat ≠ 0 then m.bpb.totalSectors16.toNat
  else m.bpb.totalSectors32.toNat

/-- A cluster the driver may hand out: its entry is loaded, the readers follow it, and
its last sector is a sector of the volume. -/
def GoodCluster (m : Mount) (c : ℕ) : Prop :=
  DataCluster m c ∧ m.dataStart + (c - 2) * m.spc + m.spc - 1 < m.totalSectors

instance (m : Mount) (c : ℕ) : Decidable (GoodCluster m c) := by
  unfold GoodCluster
  infer_instance

theorem window_goodCluster (m : Mount) : Window m.totalClusters (GoodCluster m) where
  two_le _ h := h.1.1
  lt_total _ h := h.1.lt_total
  lt _ h := h.1.lt
  down c c' h h2 hle := by
    refine ⟨(window_dataCluster m).down c c' h.1 h2 hle, lt_of_le_of_lt ?_ h.2⟩
    have hmul : (c - 2) * m.spc ≤ (c' - 2) * m.spc := Nat.mul_le_mul_right _ (by omega)
    omega

/-! ## What a call takes -/

/-- A removal leaves the statics alone but for its own table buffer. -/
theorem removeEntry_keepsBuf (owner : Owner) (verdict : RawDirEntry → Verdict) (fuel : ℕ)
    (st : Driver) :
    Always (fun result : ℤ × Driver => ∃ fatBuf, result.2 = st.keepBuf owner fatBuf)
      (removeEntry owner verdict fuel st) := by
  have hkeep : st = st.keepBuf owner (st.fatBuf owner) := by
    simp [Driver.keepBuf]
  unfold removeEntry withFat
  split_ifs with hinit
  · apply (always_trivial _).bind
    intro loaded _
    dsimp only
    split_ifs
    · exact ⟨_, rfl⟩
    · apply (always_trivial _).bind
      intro found _
      cases found with
      | none => exact ⟨_, rfl⟩
      | some hit =>
          apply (always_trivial _).bind
          intro freed _
          apply (always_trivial _).bind
          intro _ _
          apply (always_trivial _).bind
          intro _ _
          exact ⟨_, rfl⟩
  · exact ⟨_, hkeep⟩

theorem removeEntry_driver {owner : Owner} {verdict : RawDirEntry → Verdict} {fuel : ℕ}
    {st st' : Driver} {d : Disk} {r : ℤ} {writes : List (ℕ × Sector)}
    (h : (removeEntry owner verdict fuel st).Returns d (r, st') writes) :
    ∃ fatBuf, st' = st.keepBuf owner fatBuf :=
  (removeEntry_keepsBuf owner verdict fuel st).of_returns h

section Taken

variable {st st' : Driver} {d : Disk} (hv : st.mount.Valid) {fuel : ℕ} {r : ℤ} {taken : List ℕ}
  {writes : List (ℕ × Sector)}
include hv

/-- The clusters a store takes are those of the allocation from the loaded table,
whatever the directory. -/
theorem storeFile_taken {name : CString} {data : ℕ → UInt8} {size : ℕ} (hsize : size < 2 ^ 32)
    (h : (storeFile fuel st name data size).Returns d ((r, taken), st') writes) :
    ∃ a, tableAlloc st.mount d (st.fatBuf .write) (clustersFor st.mount size) = .ok a ∧
      taken = a.clusters := by
  obtain ⟨big, hbig, hreturns⟩ :=
    returns_of_more_fuel (fun _ _ hle => storeFile_extends hle st name data size) h
  have hbound := clustersFor_lt_loopBound hv hsize
  have hloop := writeClusters_start hv data (loaded st.mount d (st.fatBuf .write))
    (show clustersFor st.mount size < big by omega) d
  rw [storeFile, Returns, withFat_exec hv] at hreturns
  obtain ⟨alloc, first, second, hfirst, hsecond, -⟩ := returns_bind_iff.mp hreturns
  cases halloc : tableAlloc st.mount d (st.fatBuf .write) (clustersFor st.mount size) with
  | error fault =>
      unfold tableAlloc at halloc
      rw [halloc] at hloop
      obtain ⟨_, hstop⟩ := hloop
      rw [Returns, hstop] at hfirst
      injection hfirst with hfirst
      injection hfirst
  | ok a =>
      unfold tableAlloc at halloc
      rw [halloc] at hloop
      obtain ⟨rfl, -⟩ := hfirst.unique hloop
      refine ⟨a, rfl, ?_⟩
      -- behind the loop only the result code is still open
      refine Always.of_returns (P := fun result => result.1.2 = a.clusters) ?_ hsecond
      dsimp only
      split_ifs
      · apply (always_trivial _).bind
        intro code _
        split_ifs
        · rfl
        · apply (always_trivial _).bind
          intro _ _
          rfl
      · rfl

/-- The cluster `fat_mkdir` takes is that of the allocation from the loaded table,
whatever the directory. -/
theorem fatMkdirTaken_taken {name : CString}
    (h : (fatMkdirTaken fuel st name).Returns d ((r, taken), st') writes) :
    ∃ a, tableAlloc st.mount d (st.fatBuf .mkdir) 1 = .ok a ∧ taken = a.clusters := by
  rw [fatMkdirTaken, Returns, withFat_exec hv] at h
  unfold tableAlloc
  rcases allocChain_succ st.mount.totalClusters 0 0 (loaded st.mount d (st.fatBuf .mkdir)) with
    ⟨hfind, -⟩ | ⟨hfind, halloc⟩ | ⟨c, hfind, -, hne, halloc⟩
  · rw [hfind] at h
    injection h with h
    injection h
  · rw [hfind] at h
    injection h with h
    injection h with h
    injection h with h
    injection h with _ htaken
    exact ⟨_, halloc, htaken.symm⟩
  · refine ⟨_, halloc, ?_⟩
    rw [hfind, ret_bind, if_neg hne] at h
    refine Always.of_returns (P := fun result => result.1.2 = [c]) ?_ h
    apply (always_trivial _).bind
    intro written _
    split_ifs
    · rfl
    · apply (always_trivial _).bind
      intro cleared _
      split_ifs
      · rfl
      · apply (always_trivial _).bind
        intro _ _
        rfl

end Taken

/-- **What a call takes is good exactly when good clusters suffice.** The clusters a
write takes, from the table its delete left, and the one a new directory takes, are all
good exactly when enough good clusters are free or no other cluster is. -/
theorem taken_good_iff {st : Driver} (hv : st.mount.Valid) {d : Disk} :
    (∀ fuel name data size code st₁ first r taken st' writes, size < 2 ^ 32 →
      (fatDelete fuel st name).Returns d (code, st₁) first →
      (fatWriteTaken fuel st name data size).Returns d ((r, taken), st') writes →
      ((∀ c ∈ taken, GoodCluster st.mount c) ↔
        Supplies st.mount.totalClusters (GoodCluster st.mount)
          (loaded st.mount (applyWrites first d) (st.fatBuf .write))
          (clustersFor st.mount size))) ∧
    (∀ fuel name r taken st' writes,
      (fatMkdirTaken fuel st name).Returns d ((r, taken), st') writes →
      ((∀ c ∈ taken, GoodCluster st.mount c) ↔
        Supplies st.mount.totalClusters (GoodCluster st.mount)
          (loaded st.mount d (st.fatBuf .mkdir)) 1)) := by
  have hw := window_goodCluster st.mount
  constructor
  · intro fuel name data size code st₁ first r taken st' writes hsize hdelete hwrite
    obtain ⟨⟨code', st₂⟩, first', second, hdelete', hstore, -⟩ :=
      (fatWriteTaken_returns_iff name data hv).mp hwrite
    obtain ⟨heq, rfl⟩ := hdelete'.unique hdelete
    injection heq with _ hst
    subst hst
    obtain ⟨fatBuf, rfl⟩ := removeEntry_driver hdelete
    have hv' : (st.keepBuf .delete fatBuf).mount.Valid := hv
    obtain ⟨a, halloc, rfl⟩ := storeFile_taken hv' hsize hstore
    exact hw.clusters_ok_iff (fun h => absurd rfl h) halloc
  · intro fuel name r taken st' writes hmkdir
    obtain ⟨a, halloc, rfl⟩ := fatMkdirTaken_taken hv hmkdir
    exact hw.clusters_ok_iff (fun h => absurd rfl h) halloc

/-- On a blank volume a file of one byte and a directory take good clusters. -/
theorem taken_good_iff_blank :
    (∃ taken st' writes, (fatWriteTaken 4 (freshDriver smallMount) nameA (fun _ => 7) 1).Returns
      blank ((0, taken), st') writes ∧ ∀ c ∈ taken, GoodCluster smallMount c) ∧
    ∃ taken st' writes, (fatMkdirTaken 4 (freshDriver smallMount) nameA).Returns blank
      ((0, taken), st') writes ∧ ∀ c ∈ taken, GoodCluster smallMount c := by
  have hsupplies (fatBuf : FatBuf) : Supplies smallMount.totalClusters (GoodCluster smallMount)
      (loaded smallMount blank fatBuf) 1 := by
    refine Or.inl (Finset.card_pos.mpr ⟨2, (window_goodCluster smallMount).mem_freeIn.mpr
      ⟨by decide, ?_⟩⟩)
    rw [fatNextCluster_loaded (show Loaded smallMount 2 by decide), fatAt_blank]
  obtain ⟨hwrites, hmkdirs⟩ := @taken_good_iff (freshDriver smallMount) valid_smallMount blank
  constructor
  · obtain ⟨st₁, hdelete⟩ := returns_of_exec
      (show ((fatDelete 4 (freshDriver smallMount) nameA).exec blank).1.map Prod.fst = .ok (-1)
        by decide +kernel)
    obtain ⟨st', hwrite⟩ := returns_of_exec
      (show ((fatWriteTaken 4 (freshDriver smallMount) nameA (fun _ => 7) 1).exec blank).1.map
        Prod.fst = .ok (0, [2]) by decide +kernel)
    have hnone : ((fatDelete 4 (freshDriver smallMount) nameA).exec blank).2 = [] := by
      decide +kernel
    refine ⟨[2], st', _, hwrite, (hwrites _ _ _ _ _ _ _ _ _ _ _ (by decide) hdelete hwrite).mpr ?_⟩
    rw [hnone]
    exact hsupplies _
  · obtain ⟨st', hmkdir⟩ := returns_of_exec
      (show ((fatMkdirTaken 4 (freshDriver smallMount) nameA).exec blank).1.map Prod.fst =
        .ok (0, [2]) by decide +kernel)
    exact ⟨[2], st', _, hmkdir, (hmkdirs _ _ _ _ _ _ hmkdir).mpr (hsupplies _)⟩

/-- A volume whose table has no free entry but the last half of one behind its own. -/
def fullDisk : Disk := fun lba => .ofBytes fun k =>
  if lba = 1 then if k = 511 then 0x0F else 0xFF else 0

/-- The table of the small volume covers exactly its clusters, and all of them are in
use. A new directory takes cluster 341, which is not one of them: half of its entry is
not loaded, and its sector lies behind the end of the volume. -/
theorem fatMkdir_takes_cluster_outside : smallMount.Valid ∧
    (1 ≤ smallMount.bpb.sectorsPerFat.toNat ∧ smallMount.bpb.sectorsPerFat.toNat ≤ 12) ∧
    (∀ c, 2 ≤ c → smallMount.dataStart + (c - 2) * smallMount.spc + smallMount.spc - 1 <
      smallMount.totalSectors → Loaded smallMount c) ∧
    ∃ st' writes, (fatMkdirTaken 4 (freshDriver smallMount) nameA).Returns fullDisk
      ((0, [341]), st') writes ∧ ¬ Loaded smallMount 341 ∧
      ¬ smallMount.dataStart + (341 - 2) * smallMount.spc + smallMount.spc - 1 <
        smallMount.totalSectors := by
  refine ⟨valid_smallMount, by decide, ?_, ?_⟩
  · intro c h2 hlt
    change 3 + (c - 2) * 1 + 1 - 1 < 342 at hlt
    change c + c / 2 + 1 < 1 * 512
    omega
  · obtain ⟨st', hmkdir⟩ := returns_of_exec
      (show ((fatMkdirTaken 4 (freshDriver smallMount) nameA).exec fullDisk).1.map Prod.fst =
        .ok (0, [341]) by decide +kernel)
    exact ⟨st', _, hmkdir, by decide, by decide⟩

end MasterOS.Fat
