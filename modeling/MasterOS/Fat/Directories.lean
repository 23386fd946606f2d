/-
# New directories, and the current one

A new directory is a free cluster whose first sector holds the two dot records and whose
other sectors are left as they are. It holds nothing live, so a volume stays sound
whatever these sectors hold; it stays well formed when they read as the directory's end.
A change of directory writes nothing: it goes to the root, stays, or enters the directory
its search finds.
-/

import MasterOS.Fat.Preserve

namespace MasterOS.Fat

open MasterOS.Device MasterOS.Device.Prog MasterOS.Math

/-! ## New directories -/

theorem dotEntry_flags {dots : ℕ} (h : 0 < dots) (c : ℕ) :
    (dotEntry dots c).live = false ∧ (dotEntry dots c).isEnd = false ∧
      (dotEntry dots c).isLabel = false := by
  have hname : (dotEntry dots c).name 0 = 0x2E := by simp [dotEntry, h]
  have hend : (dotEntry dots c).isEnd = false := by simp [RawDirEntry.isEnd, hname]
  have hdir : (dotEntry dots c).isDir = true := by simp [RawDirEntry.isDir, dotEntry]
  have hdot : (dotEntry dots c).startsWithDot = true := by
    simp [RawDirEntry.startsWithDot, hname]
  exact ⟨by simp [RawDirEntry.live, hdir, hdot], hend,
    show ((0x10 : UInt8) &&& 0x08 != 0) = false by decide⟩

/-- The records of the first sector of a new directory: the two dot records, and
behind them the end. -/
theorem entry_newDirSector (c parent : ℕ) (k : ℕ) :
    (newDirSector c parent).entry k =
      if k = 0 then dotEntry 1 c else if k = 1 then dotEntry 2 parent
      else (Sector.ofBytes fun _ => 0).entry k := by
  unfold newDirSector
  by_cases h0 : k = 0
  · rw [if_pos h0, h0, Sector.entry_setEntry_of_ne _ _ (by decide),
      Sector.entry_setEntry_self _ _ (by decide)]
  · rw [if_neg h0]
    by_cases h1 : k = 1
    · rw [if_pos h1, h1, Sector.entry_setEntry_self _ _ (by decide)]
    · rw [if_neg h1, Sector.entry_setEntry_of_ne _ _ h1, Sector.entry_setEntry_of_ne _ _ h0]

theorem byte_zeroSector (i : ℕ) : (Sector.ofBytes fun _ => 0).byte i = 0 := by
  unfold Sector.byte
  split_ifs <;> rfl

theorem isEnd_entry_zero {k : ℕ} : ((Sector.ofBytes fun _ => 0).entry k).isEnd = true := by
  show ((Sector.ofBytes fun _ => 0).byte (32 * k + 0) == 0) = true
  rw [byte_zeroSector]
  rfl

theorem newDirSector_flags (c parent k : ℕ) :
    ((newDirSector c parent).entry k).live = false ∧
      (((newDirSector c parent).entry k).isEnd = true ↔ 2 ≤ k) ∧
      ¬ (((newDirSector c parent).entry k).isLabel = true ∧
        ((newDirSector c parent).entry k).isDir = true) := by
  rw [entry_newDirSector]
  split_ifs with h0 h1
  · obtain ⟨hlive, hend, hlabel⟩ := dotEntry_flags (show 0 < 1 by decide) c
    exact ⟨hlive, by rw [hend]; simp [h0], by simp [hlabel]⟩
  · obtain ⟨hlive, hend, hlabel⟩ := dotEntry_flags (show 0 < 2 by decide) parent
    exact ⟨hlive, by rw [hend]; simp [h1], by simp [hlabel]⟩
  · refine ⟨by simp [RawDirEntry.live, isEnd_entry_zero], ?_, ?_⟩
    · rw [isEnd_entry_zero]
      exact ⟨fun _ => by omega, fun _ => rfl⟩
    · have hattr : ((Sector.ofBytes fun _ => 0).entry k).attributes = 0 := byte_zeroSector _
      simp [RawDirEntry.isLabel, hattr]

section NewDir

variable {m : Mount} {d' : Disk} {c parent : ℕ} (hc : c ≠ 0)
  (hsector : d' (m.clusterLba c 0) = newDirSector c parent)
include hc

/-- The first sixteen slots of a new directory lie in its first sector. -/
theorem slotAt_newDir {k : ℕ} (hk : k < 16) :
    slotAt m (fatAt m d') c k = some (m.clusterLba c 0, k) := by
  refine slotAt_eq_some_iff.mpr ⟨?_, (Nat.mod_eq_of_lt hk).symm⟩
  rw [dirLba, if_neg hc, Nat.div_eq_of_lt hk, Nat.zero_div, Nat.zero_mod]
  rfl

include hsector

/-- A new directory holds nothing live: what follows its two dot records is behind its
end. -/
theorem not_liveAt_newDir (k : ℕ) (loc : Loc) : ¬ LiveAt m d' c k loc := by
  rintro ⟨hloc, hlive, hbefore⟩
  have hentry {i : ℕ} : entryAt d' (m.clusterLba c 0, i) = (newDirSector c parent).entry i := by
    rw [entryAt, hsector]
  by_cases hk : k < 16
  · have heq : loc = (m.clusterLba c 0, k) :=
      Option.some.inj (hloc.symm.trans (slotAt_newDir hc hk))
    rw [heq, show (forest m d').entry _ = entryAt d' _ from rfl, hentry] at hlive
    rw [show entryKind.live _ = (_ = true) from rfl, (newDirSector_flags c parent k).1] at hlive
    exact absurd hlive (by decide)
  · refine hbefore 2 (by omega) _ (slotAt_newDir hc (by decide)) ?_
    rw [show (forest m d').entry _ = entryAt d' _ from rfl, hentry]
    exact (newDirSector_flags c parent 2).2.1.mpr le_rfl

end NewDir

/-- Behind the first sector of a cluster every record reads as the end of a directory. -/
def Cleared (m : Mount) (d : Disk) (c : ℕ) : Prop :=
  ∀ k, 1 ≤ k → k < m.spc → ∀ i < 16, ((d (m.clusterLba c k)).entry i).isEnd = true ∧
    ¬ (((d (m.clusterLba c k)).entry i).isLabel = true ∧
      ((d (m.clusterLba c k)).entry i).isDir = true)

/-- A cluster of one sector has nothing behind it. -/
theorem cleared_of_spc_eq_one {m : Mount} (hspc : m.spc = 1) (d : Disk) (c : ℕ) :
    Cleared m d c := by
  intro k hk hlt
  omega

theorem Cleared.congr {m : Mount} {d d' : Disk} {c : ℕ} (h : Cleared m d c)
    (same : ∀ k, 1 ≤ k → k < m.spc → d' (m.clusterLba c k) = d (m.clusterLba c k)) :
    Cleared m d' c := by
  intro k hk hlt i hi
  rw [same k hk hlt]
  exact h k hk hlt i hi

section NewDirSlots

variable {m : Mount} {d' : Disk} {c parent : ℕ} (hv : m.Valid) (hok : DataCluster m c)
  (hend : EndMark (fatAt m d' c))
include hv hok hend

/-- The slots of a directory of one cluster lie in that cluster. -/
theorem slot_newDir {k : ℕ} {loc : Loc} (hloc : slotAt m (fatAt m d') c k = some loc) :
    k / 16 < m.spc ∧ loc = (m.clusterLba c (k / 16), k % 16) := by
  obtain ⟨hlba, hindex⟩ := slotAt_eq_some_iff.mp hloc
  rw [dirLba_of_chain (.last hok hend), Option.map_eq_some_iff] at hlba
  obtain ⟨x, hx, hlba⟩ := hlba
  obtain ⟨hzero, hx⟩ := List.getElem?_eq_some_iff.mp hx
  rw [List.length_singleton, Nat.lt_one_iff, Nat.div_eq_zero_iff] at hzero
  have hspc := hv.spc_pos
  have hlt : k / 16 < m.spc := hzero.resolve_left (by omega)
  rw [List.getElem_singleton] at hx
  rw [Nat.mod_eq_of_lt hlt, ← hx] at hlba
  exact ⟨hlt, Prod.ext hlba.symm hindex⟩

/-- In a new directory over a cleared cluster exactly the two dot records are not at its
end, and no record is both a volume label and a directory. -/
theorem entryAt_newDir (hsector : d' (m.clusterLba c 0) = newDirSector c parent)
    (hclear : Cleared m d' c) {k : ℕ} {loc : Loc}
    (hloc : slotAt m (fatAt m d') c k = some loc) :
    ((entryAt d' loc).isEnd = true ↔ 2 ≤ k) ∧
      ¬ ((entryAt d' loc).isLabel = true ∧ (entryAt d' loc).isDir = true) := by
  obtain ⟨hlt, rfl⟩ := slot_newDir hv hok hend hloc
  have hi : k % 16 < 16 := Nat.mod_lt k (by decide)
  by_cases hk : k < 16
  · rw [Nat.div_eq_of_lt hk, Nat.mod_eq_of_lt hk, entryAt, hsector]
    exact (newDirSector_flags c parent k).2
  · obtain ⟨hisEnd, hflags⟩ := hclear (k / 16) (by omega) hlt (k % 16) hi
    exact ⟨⟨fun _ => by omega, fun _ => hisEnd⟩, hflags⟩

end NewDirSlots

section CreatedDir

variable {m : Mount} {d d' : Disk} (hw : WellFormed m d) {dirc k parent c : ℕ} {loc : Loc}
  {name : CString} {a : Chained} (hreach : Reach m d dirc)
  (htake : FirstTake (slotAt m (fatAt m d) dirc) d freeVerdict k loc)
  (hcreated : Created m d d' loc (newEntry name 0x10 c 0) a) (hunused : Unused m d a.clusters)
  (hclusters : a.clusters = [c]) (hok : DataCluster m c) (hend : EndMark (fatAt m d' c))
  (hsector : d' (m.clusterLba c 0) = newDirSector c parent)
include hcreated hok

/-- The record of a new directory: its cluster, and the flags that matter to a search. -/
theorem newDir_record :
    (entryAt d' loc).firstCluster.toNat = c ∧ (entryAt d' loc).isEnd = false ∧
      (entryAt d' loc).isLabel = false := by
  have hlt := hok.lt
  rw [hcreated.entry]
  exact ⟨firstCluster_newEntry name 0x10 (show c < 2 ^ 16 by omega) 0,
    (newEntry_flags name 0x10 c 0).1, show ((0x10 : UInt8) &&& 0x08 != 0) = false by decide⟩

include hsector

/-- Nothing is live below the record of a new directory. -/
theorem not_liveAt_created (k : ℕ) (loc' : Loc) :
    ¬ LiveAt m d' (entryAt d' loc).firstCluster.toNat k loc' := by
  have hc : c ≠ 0 := Nat.ne_of_gt (Nat.lt_of_lt_of_le (by decide) hok.1)
  rw [(newDir_record hcreated hok).1]
  exact not_liveAt_newDir hc hsector k loc'

include hw htake hreach hunused hclusters hend

/-- A directory placed in the first free slot, over a cluster that was free, keeps the
volume sound, whatever its cluster held before. -/
theorem Sound.created_dir : Sound m d' ∧ Reach m d' dirc := by
  obtain ⟨hfirst, hnotEnd, -⟩ := newDir_record hcreated hok
  have howns : Owns m d' (entryAt d' loc) [c] := by
    refine Or.inr ?_
    rw [hfirst]
    exact .last hok hend
  refine ⟨hw.sound_insertion hcreated.edit hunused (fun _ _ => not_liveAt_created hcreated hok hsector)
    fun _ => ⟨[c], ?_, howns⟩, ?_⟩
  · rw [hclusters]
    exact List.Subset.refl _
  · exact reach_after_insertion hcreated.edit hunused hw.toSound
      (live_eq_false_of_free htake.2.1) hnotEnd hreach

/-- It keeps the volume well formed when the cluster reads as empty behind its first
sector. -/
theorem WellFormed.created_dir (hclear : Cleared m d' c) : WellFormed m d' ∧ Reach m d' dirc := by
  obtain ⟨-, hcwd⟩ :=
    Sound.created_dir hw hreach htake hcreated hunused hclusters hok hend hsector
  obtain ⟨hfirst, hnotEnd, hlabel⟩ := newDir_record hcreated hok
  have hslot {k : ℕ} {loc₁ : Loc} (h : slotAt m (fatAt m d') c k = some loc₁) :=
    entryAt_newDir hw.valid hok hend hsector hclear h
  refine ⟨hw.insertion hreach htake.1 (fun k' hk' loc' hloc' => (htake.before_free hk' hloc').1)
    hcreated.edit hunused hnotEnd (fun _ _ => not_liveAt_created hcreated hok hsector)
    (fun _ => ⟨[c], ?_, Or.inr ?_⟩) (by simp [hlabel]) (fun _ => ?_) (fun _ => ?_)
    hcreated.copies, hcwd⟩
  · rw [hclusters]
    exact List.Subset.refl _
  · rw [hfirst]
    exact .last hok hend
  · rw [hfirst]
    intro k₁ k₂ loc₁ loc₂ hlt hloc₁ hloc₂ hend₁
    have := (hslot hloc₁).1.mp hend₁
    exact (hslot hloc₂).1.mpr (by omega)
  · rw [hfirst]
    intro k₁ loc₁ hloc₁
    exact (hslot hloc₁).2

end CreatedDir

section Mkdir

variable {st st' : Driver} {d : Disk} {fuel : ℕ} {r : ℤ} {writes : List (ℕ × Sector)}

theorem sector_mkdirWrites (m : Mount) (parent c : ℕ) (fatBuf : FatBuf) (d : Disk) :
    applyWrites (mkdirWrites m parent c fatBuf) d (m.clusterLba c 0) = newDirSector c parent := by
  rw [mkdirWrites, applyWrites_append, applyWrites_cons, applyWrites_nil, Function.update_self]

/-- `fat_mkdir` with a free data cluster: the cluster is taken, and the record is placed
if a slot is free. -/
theorem fatMkdirTaken_outcome_of_room (hs : Sound st.mount d)
    (hcwd : Reach st.mount d st.currentDirCluster) {name : CString}
    (hroom : 1 ≤ (freeClusters st.mount (fatAt st.mount d)).card) {taken : List ℕ}
    (h : (fatMkdirTaken fuel st name).Returns d ((r, taken), st') writes) :
    ∃ c fatBuf', tableAlloc st.mount d (st.fatBuf .mkdir) 1 = .ok ⟨true, [c], fatBuf'⟩ ∧
      AllocSpec (DataCluster st.mount) (loaded st.mount d (st.fatBuf .mkdir)) 0 1 [c] fatBuf' ∧ taken = [c] ∧
      (∃ fatBuf, st' = st.keepBuf .mkdir fatBuf) ∧
      ((∀ loc, ¬ Named st.mount d st.currentDirCluster freeVerdict loc) ∧ r = -1 ∧
          writes = mkdirWrites st.mount st.currentDirCluster c fatBuf' ∨
        ∃ loc, Named st.mount d st.currentDirCluster freeVerdict loc ∧ r = 0 ∧
          writes = mkdirWrites st.mount st.currentDirCluster c fatBuf' ++
            [slotWrite d loc (newEntry name 0x10 c 0)]) := by
  obtain ⟨l, fatBuf', halloc, hspec⟩ := tableAlloc_of_room hroom (st.fatBuf .mkdir)
  obtain ⟨a, halloc', hst, hcases⟩ := fatMkdirTaken_outcome (hs.walks hcwd) h
  rw [halloc] at halloc'
  injection halloc' with ha
  subst ha
  rcases hcases with ⟨hfalse, -⟩ | ⟨c, -, hclusters, htaken, hcases⟩
  · simp at hfalse
  · have hl : l = [c] := hclusters
    subst hl
    refine ⟨c, fatBuf', halloc, hspec, htaken, hst, ?_⟩
    rcases hcases with ⟨hnone, hr, hwrites⟩ | ⟨loc, hnamed, hr, hwrites⟩
    · exact Or.inl ⟨hnone, hr, hwrites⟩
    · exact Or.inr ⟨loc, hnamed, hr, hwrites⟩

/-- A directory sector is no sector of a cluster that was free. -/
theorem slot_ne_clusterLba {m : Mount} {dirc n k c : ℕ} {loc : Loc}
    (hwalk : Walks m d dirc) (hloc : slotAt m (fatAt m d) dirc n = some loc) {C : List ℕ}
    (hunused : Unused m d C) (hclusters : ∀ c ∈ C, 2 ≤ c ∧ c < 6146) (hc : c ∈ C)
    (hk : k < m.spc) : loc.1 ≠ m.clusterLba c k := by
  obtain ⟨h2, hlt⟩ := hclusters c hc
  exact dirLba_ne_clusterLba hwalk.valid hwalk.dirOk (slotAt_eq_some_iff.mp hloc).1
    (fun ld hld hmem => hunused.disjoint_chain hld hmem hc) h2 hlt hk

/-- Placing the record of a new directory leaves the directory's first sector. -/
theorem sector_of_placed {m : Mount} {dirc n c : ℕ} {loc : Loc}
    (hwalk : Walks m d dirc) (hloc : slotAt m (fatAt m d) dirc n = some loc) {C : List ℕ}
    (hunused : Unused m d C) (hclusters : ∀ c ∈ C, 2 ≤ c ∧ c < 6146) (hc : c ∈ C) (parent : ℕ)
    (fatBuf : FatBuf) (e : RawDirEntry) :
    applyWrites (mkdirWrites m parent c fatBuf ++ [slotWrite d loc e]) d (m.clusterLba c 0) =
      newDirSector c parent := by
  have hne := slot_ne_clusterLba hwalk hloc hunused hclusters hc hwalk.valid.spc_pos
  rw [applyWrites_append, applyWrites_cons, applyWrites_nil, slotWrite,
    Function.update_of_ne hne.symm, sector_mkdirWrites]

/-- The other sectors of the new directory's cluster are left as they were. -/
theorem sector_behind_placed {m : Mount} {dirc n c : ℕ} {loc : Loc}
    (hwalk : Walks m d dirc) (hloc : slotAt m (fatAt m d) dirc n = some loc) {C : List ℕ}
    (hunused : Unused m d C) (hclusters : ∀ c ∈ C, 2 ≤ c ∧ c < 6146) (hc : c ∈ C) (parent : ℕ)
    (fatBuf : FatBuf) (e : RawDirEntry) {k : ℕ} (hk : 1 ≤ k) (hks : k < m.spc) :
    applyWrites (mkdirWrites m parent c fatBuf ++ [slotWrite d loc e]) d (m.clusterLba c k) =
      d (m.clusterLba c k) := by
  have hv := hwalk.valid
  obtain ⟨h2, hlt⟩ := hclusters c hc
  have hslot := slot_ne_clusterLba hwalk hloc hunused hclusters hc hks
  have hfirst : m.clusterLba c k ≠ m.clusterLba c 0 := fun heq => by
    have := (hv.clusterLba_inj h2 hlt hks h2 hlt hv.spc_pos heq).2
    omega
  have hroot : m.rootStart ≤ m.clusterLba c k := by
    have := hv.dataStart_le_clusterLba h2 hlt hks
    have := hv.dataStart_eq
    omega
  rw [applyWrites_append, applyWrites_cons, applyWrites_nil, slotWrite,
    Function.update_of_ne hslot.symm, mkdirWrites, applyWrites_append, applyWrites_cons,
    applyWrites_nil, Function.update_of_ne hfirst,
    applyWrites_fatWrites_of_outside hv (Or.inr hroot)]

/-- The cluster the next allocation of a single cluster takes, or 0 for none. -/
def nextFree (st : Driver) (d : Disk) (owner : Owner) : ℕ :=
  fatFindFreeCluster (loaded st.mount d (st.fatBuf owner)) st.mount.totalClusters

theorem nextFree_eq {a : Chained} {c : ℕ} (hclusters : a.clusters = [c])
    (halloc : tableAlloc st.mount d (st.fatBuf .mkdir) 1 = .ok a) :
    nextFree st d .mkdir = c := by
  rcases allocChain_one_eq_ok halloc with ⟨-, rfl⟩ | ⟨c', -, hfind, -, rfl⟩
  · simp at hclusters
  · exact hfind.trans (List.singleton_inj.mp hclusters)

/-- What `fat_mkdir` leaves when a data cluster is free: a cluster taken that nothing
points at, or the new directory placed. -/
theorem fatMkdir_created (hready : Ready st d) {name : CString}
    (hroom : 1 ≤ (freeClusters st.mount (fatAt st.mount d)).card)
    (h : (fatMkdir fuel st name).Returns d (r, st') writes) :
    ∃ fatBuf, st' = st.keepBuf .mkdir fatBuf ∧
      (r = -1 ∧ (∃ C, Edit st.mount d (applyWrites writes d) (fun _ => False) C ∧
          Unused st.mount d C ∧ Copies st.mount (applyWrites writes d)) ∨
        ∃ c k loc a, r = 0 ∧ nextFree st d .mkdir = c ∧ DataCluster st.mount c ∧
          a.clusters = [c] ∧ Unused st.mount d a.clusters ∧
          FirstTake (slotAt st.mount (fatAt st.mount d) st.currentDirCluster) d freeVerdict k
            loc ∧
          Created st.mount d (applyWrites writes d) loc (newEntry name 0x10 c 0) a ∧
          EndMark (fatAt st.mount (applyWrites writes d) c) ∧
          applyWrites writes d (st.mount.clusterLba c 0) =
            newDirSector c st.currentDirCluster ∧
          ∀ k, 1 ≤ k → k < st.mount.spc →
            applyWrites writes d (st.mount.clusterLba c k) = d (st.mount.clusterLba c k)) := by
  have hs := hready.sound
  have hv := hs.valid
  have hwalk := hs.walks hready.cwd
  obtain ⟨taken, h⟩ := fatMkdir_returns_iff.mp h
  obtain ⟨c, fatBuf', halloc, hspec, -, ⟨fatBuf, rfl⟩, hcases⟩ :=
    fatMkdirTaken_outcome_of_room hs hready.cwd hroom h
  have hunused := unused_of_tableAlloc halloc
  have hclusters := clusters_of_tableAlloc halloc
  have hmem := List.mem_singleton_self c
  have hok := (hspec.free c hmem).1
  obtain ⟨h2, hlt⟩ := hclusters c hmem
  refine ⟨fatBuf, rfl, ?_⟩
  rcases hcases with ⟨-, hr, rfl⟩ | ⟨loc, ⟨k, htake⟩, hr, rfl⟩
  · left
    exact ⟨hr, [c], edit_of_mkdirWrites hwalk halloc rfl st.currentDirCluster fun _ => False,
      hunused, copies_mkdirWrites hv st.currentDirCluster fatBuf' d h2 hlt⟩
  · right
    have hcreated := created_of_mkdirWrites hwalk halloc rfl htake.1 st.currentDirCluster
      (newEntry name 0x10 c 0)
    have hend : EndMark (fatAt st.mount (applyWrites (mkdirWrites st.mount st.currentDirCluster c
        fatBuf' ++ [slotWrite d loc (newEntry name 0x10 c 0)]) d) c) := by
      rw [hcreated.table c hok.2.2]
      cases hspec.chain (by simp) with
      | last _ hend => exact hend
      | link _ hrest => exact absurd hrest.head_mem (by simp)
    exact ⟨c, k, loc, _, hr, nextFree_eq rfl halloc, hok, rfl, hunused, htake, hcreated, hend,
      sector_of_placed hwalk htake.1 hunused hclusters hmem st.currentDirCluster fatBuf'
        (newEntry name 0x10 c 0),
      fun _ hk hks => sector_behind_placed hwalk htake.1 hunused hclusters hmem
        st.currentDirCluster fatBuf' (newEntry name 0x10 c 0) hk hks⟩

/-- `fat_mkdir` keeps a volume sound when a data cluster is free. -/
theorem fatMkdir_sound (hready : Ready st d) {name : CString}
    (hroom : 1 ≤ (freeClusters st.mount (fatAt st.mount d)).card)
    (h : (fatMkdir fuel st name).Returns d (r, st') writes) :
    Sound st.mount (applyWrites writes d) ∧
      Reach st.mount (applyWrites writes d) st.currentDirCluster := by
  obtain ⟨fatBuf, -, hcases⟩ := fatMkdir_created hready hroom h
  rcases hcases with ⟨-, C, hedit, hunused, hcopies⟩ |
    ⟨c, k, loc, a, -, -, hok, hclusters, hunused, htake, hcreated, hend, hsector, -⟩
  · have hready' := hready.edit_unused hedit hunused hcopies
    exact ⟨hready'.sound, hready'.cwd⟩
  · exact Sound.created_dir hready.wellFormed hready.cwd htake hcreated hunused hclusters hok
      hend hsector

/-- It keeps the volume well formed when the cluster it takes reads as empty behind its
first sector. -/
theorem Ready.fatMkdir_of_cleared (hready : Ready st d) {name : CString}
    (hroom : 1 ≤ (freeClusters st.mount (fatAt st.mount d)).card)
    (hclear : Cleared st.mount d (nextFree st d .mkdir))
    (h : (fatMkdir fuel st name).Returns d (r, st') writes) :
    Ready st' (applyWrites writes d) := by
  obtain ⟨fatBuf, rfl, hcases⟩ := fatMkdir_created hready hroom h
  refine ready_keepBuf_iff.mpr ?_
  rcases hcases with ⟨-, C, hedit, hunused, hcopies⟩ |
    ⟨c, k, loc, a, -, hnext, hok, hclusters, hunused, htake, hcreated, hend, hsector, hkeep⟩
  · exact hready.edit_unused hedit hunused hcopies
  · rw [hnext] at hclear
    obtain ⟨hw', hcwd'⟩ := WellFormed.created_dir hready.wellFormed hready.cwd htake hcreated
      hunused hclusters hok hend hsector (hclear.congr hkeep)
    exact ⟨hw', hcwd'⟩

/-- `fat_mkdir` keeps the volume well formed when a cluster is one sector and one is
free. -/
theorem Ready.fatMkdir (hready : Ready st d) (hspc : st.mount.spc = 1) {name : CString}
    (hroom : 1 ≤ (freeClusters st.mount (fatAt st.mount d)).card)
    (h : (fatMkdir fuel st name).Returns d (r, st') writes) :
    Ready st' (applyWrites writes d) :=
  hready.fatMkdir_of_cleared hroom (cleared_of_spc_eq_one hspc d _) h

end Mkdir

/-! ## Changing the directory -/

section Cd

variable {st : Driver} {d : Disk} (hwalk : Walks st.mount d st.currentDirCluster)
  {name : CString} {fuel : ℕ}

/-- The way up is the way to the root. -/
theorem fatCd_up (hmounted : st.mount.initialized = true) (hup : name.chars = [0x2E, 0x2E])
    (fuel : ℕ) (d : Disk) :
    (fatCd fuel st name).Returns d (0, { st with currentDirCluster := 0, currentPath := [0x2F] })
      [] := by
  have hguard : (st.mount.initialized && name.chars == [0x2E, 0x2E]) = true := by
    rw [hmounted, hup]
    rfl
  rw [fatCd, if_pos hguard]
  rfl

section Down

variable (hdown : name.chars ≠ [0x2E, 0x2E]) (hfuel : loopBound < fuel)
include hwalk hdown hfuel

/-- Past the special case the table is loaded and the directory searched. -/
theorem fatCd_exec : ∃ result,
    SearchResult (slotAt st.mount (fatAt st.mount d) st.currentDirCluster) d (dirVerdict name)
      result ∧
    (fatCd fuel st name).exec d =
      ((match result with
        | none => (.ret (-1, st.keepBuf .cd (loaded st.mount d (st.fatBuf .cd))) :
            FatProg (ℤ × Driver))
        | some hit =>
            let path := cdPath st.currentPath (cstr (makeName hit.entry.name hit.entry.ext))
            if path.length < 256 then
              .ret (0, { st.keepBuf .cd (loaded st.mount d (st.fatBuf .cd)) with
                currentDirCluster := hit.entry.firstCluster.toNat, currentPath := path })
            else .stop .outOfBounds).exec d) := by
  have hguard : ¬ (st.mount.initialized && name.chars == [0x2E, 0x2E]) = true := by
    simp [hdown]
  obtain ⟨result, hfind, hresult⟩ := findSlot_dirKept hwalk.valid
    (hwalk.dirKept_loaded (st.fatBuf .cd)) (fun _ _ _ => rfl) (dirVerdict name) hfuel
  refine ⟨result, hresult, ?_⟩
  rw [fatCd, if_neg hguard, withFat_exec hwalk.valid, hfind.exec_bind]
  cases result <;> rfl

theorem fatCd_returns_none
    (hnone : ∀ loc, ¬ Named st.mount d st.currentDirCluster (dirVerdict name) loc) :
    (fatCd fuel st name).Returns d
      (-1, st.keepBuf .cd (loaded st.mount d (st.fatBuf .cd))) [] := by
  obtain ⟨result, hresult, hexec⟩ := fatCd_exec hwalk hdown hfuel
  cases result with
  | none => exact hexec
  | some hit =>
      obtain ⟨n, loc, htake, -⟩ := hresult
      exact absurd ⟨n, htake⟩ (hnone loc)

/-- The directory its test finds is entered, unless the longer path does not fit into
`current_path`: then the copy runs over the array's end. -/
theorem fatCd_exec_some {loc : Loc}
    (hnamed : Named st.mount d st.currentDirCluster (dirVerdict name) loc) :
    (fatCd fuel st name).exec d =
      if (cdPath st.currentPath
          (cstr (makeName (entryAt d loc).name (entryAt d loc).ext))).length < 256 then
        (.ok (0, { st.keepBuf .cd (loaded st.mount d (st.fatBuf .cd)) with
          currentDirCluster := (entryAt d loc).firstCluster.toNat,
          currentPath := cdPath st.currentPath
            (cstr (makeName (entryAt d loc).name (entryAt d loc).ext)) }), [])
      else (.error .outOfBounds, []) := by
  obtain ⟨result, hresult, hexec⟩ := fatCd_exec hwalk hdown hfuel
  obtain ⟨k, htake⟩ := hnamed
  cases result with
  | none => exact absurd htake (hresult k loc)
  | some hit =>
      obtain ⟨n, loc', htake', rfl⟩ := hresult
      obtain ⟨rfl, rfl⟩ := htake.unique htake'
      dsimp only at hexec
      rw [htake.hit_entry.2] at hexec
      rw [hexec]
      split_ifs <;> rfl

end Down

variable {st' : Driver} {r : ℤ} {writes : List (ℕ × Sector)}
include hwalk

/-- A change of directory writes nothing. It goes to the root, stays, or enters the
directory its test finds, with the path that fits. -/
theorem fatCd_cases (h : (fatCd fuel st name).Returns d (r, st') writes) :
    writes = [] ∧
      (name.chars = [0x2E, 0x2E] ∧
          st' = { st with currentDirCluster := 0, currentPath := [0x2F] } ∨
        (r = -1 ∧ ∃ fatBuf, st' = st.keepBuf .cd fatBuf) ∨
        ∃ loc fatBuf, name.chars ≠ [0x2E, 0x2E] ∧
          Named st.mount d st.currentDirCluster (dirVerdict name) loc ∧
          (cdPath st.currentPath
            (cstr (makeName (entryAt d loc).name (entryAt d loc).ext))).length < 256 ∧
          st' = { st.keepBuf .cd fatBuf with
            currentDirCluster := (entryAt d loc).firstCluster.toNat,
            currentPath := cdPath st.currentPath
              (cstr (makeName (entryAt d loc).name (entryAt d loc).ext)) }) := by
  obtain ⟨big, hmax, h⟩ := returns_of_more_fuel (fun _ _ hle => fatCd_extends hle st name) h
  by_cases hup : name.chars = [0x2E, 0x2E]
  · obtain ⟨hresult, rfl⟩ := h.unique (fatCd_up hwalk.valid.initialized hup big d)
    exact ⟨rfl, Or.inl ⟨hup, (Prod.mk.inj hresult).2⟩⟩
  · by_cases hnamed : ∃ loc, Named st.mount d st.currentDirCluster (dirVerdict name) loc
    · obtain ⟨loc, hnamed⟩ := hnamed
      have hexec := fatCd_exec_some hwalk hup hmax hnamed
      rw [Returns] at h
      rw [h] at hexec
      split_ifs at hexec with hfits
      · obtain ⟨hresult, rfl⟩ := Prod.mk.inj hexec
        exact ⟨rfl, Or.inr (Or.inr ⟨loc, _, hup, hnamed, hfits,
          (Prod.mk.inj (Except.ok.inj hresult)).2⟩)⟩
      · cases (Prod.mk.inj hexec).1
    · obtain ⟨hresult, rfl⟩ := h.unique (fatCd_returns_none hwalk hup hmax (not_exists.mp hnamed))
      obtain ⟨hr, hst⟩ := Prod.mk.inj hresult
      exact ⟨rfl, Or.inr (Or.inl ⟨hr, _, hst⟩)⟩

theorem fatCd_outcome (h : (fatCd fuel st name).Returns d (r, st') writes) :
    writes = [] ∧ st'.mount = st.mount ∧
      (st'.currentDirCluster = 0 ∨ st'.currentDirCluster = st.currentDirCluster ∨
        ∃ loc, Named st.mount d st.currentDirCluster (dirVerdict name) loc ∧
          st'.currentDirCluster = (entryAt d loc).firstCluster.toNat) := by
  obtain ⟨rfl, ⟨-, rfl⟩ | ⟨-, fatBuf, rfl⟩ | ⟨loc, fatBuf, -, hnamed, -, rfl⟩⟩ :=
    fatCd_cases hwalk h
  · exact ⟨rfl, rfl, Or.inl rfl⟩
  · exact ⟨rfl, rfl, Or.inr (Or.inl rfl)⟩
  · exact ⟨rfl, rfl, Or.inr (Or.inr ⟨loc, hnamed, rfl⟩)⟩

end Cd

/-- `fat_cd` ends in a directory that can be reached. -/
theorem Ready.fatCd {st st' : Driver} {d : Disk} (hready : Ready st d) {name : CString}
    {fuel : ℕ} {r : ℤ} {writes : List (ℕ × Sector)}
    (h : (fatCd fuel st name).Returns d (r, st') writes) : Ready st' (applyWrites writes d) := by
  obtain ⟨rfl, hmount, hcwd⟩ := fatCd_outcome (hready.sound.walks hready.cwd) h
  refine ⟨hmount ▸ hready.wellFormed, ?_⟩
  rw [applyWrites_nil, hmount]
  rcases hcwd with hroot | hsame | ⟨loc, hnamed, hchild⟩
  · rw [hroot]
    exact .root
  · rw [hsame]
    exact hready.cwd
  · obtain ⟨⟨n, hlive⟩, hdir, -⟩ := hnamed.dir hready.wellFormed hready.cwd
    rw [hchild]
    exact .child hready.cwd hlive (child_eq_some_iff.mpr ⟨hdir, rfl⟩)

end MasterOS.Fat
