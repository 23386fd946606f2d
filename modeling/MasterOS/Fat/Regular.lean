/-
# Regular calls

What a call does to the tree of directories is one of four changes, or a write's two of
them in turn: no record changes, a record goes with its clusters, a file gets another
name, or a record is put in over clusters that were free. Whatever is live afterwards is
the record a change put in, or was live before in the same place and under the same
record.

A call is regular when the clusters it takes are data clusters, and a new directory's
cluster reads as empty behind the one sector that the driver writes. Regular calls keep a
volume of any geometry well formed, and each is a change.
-/

import MasterOS.Fat.Bounds
import MasterOS.Fat.Capacity
import MasterOS.Fat.Runs

namespace MasterOS.Fat

open MasterOS.Device MasterOS.Device.Prog MasterOS.Math

/-! ## Allocations that end in data clusters -/

/-- An allocation that the data clusters supply and that runs to its end finds as many of
them free as it takes. -/
theorem room_of_supplies {m : Mount} {d : Disk} {fatBuf : FatBuf} {n : ℕ} {a : Chained}
    (hsupplies : Supplies m.totalClusters (DataCluster m) (loaded m d fatBuf) n)
    (halloc : tableAlloc m d fatBuf n = .ok a) (hdone : a.complete = true) :
    n ≤ (freeClusters m (fatAt m d)).card := by
  rw [← freeClusters_loaded m d fatBuf]
  rcases hsupplies with hroom | hall
  · exact hroom
  · -- nothing but data clusters is free, so the search counts these
    have hle := (complete_iff_le_capacity m.totalClusters_le (fun h => absurd rfl h) halloc).mp hdone
    have hsub : freeBelow m.totalClusters (fatNextCluster (loaded m d fatBuf)) ⊆
        freeClusters m (fatNextCluster (loaded m d fatBuf)) := by
      intro c hc
      obtain ⟨⟨h2, hlt⟩, hfree⟩ := mem_freeBelow.mp hc
      exact mem_freeClusters.mpr ⟨hall c h2 hlt hfree, hfree⟩
    have h4096 : 4096 ∉ freeBelow m.totalClusters (fatNextCluster (loaded m d fatBuf)) := by
      intro hmem
      have := (mem_freeClusters.mp (hsub hmem)).1.lt
      omega
    rw [capacity, if_neg fun h => h4096 h.1, Nat.add_zero] at hle
    exact hle.trans (Finset.card_le_card hsub)

/-! ## Changes of the tree -/

/-- A change of one directory's records, with the record that it puts in. -/
inductive Change (m : Mount) (dirc : ℕ) (d d' : Disk) : Option (Loc × RawDirEntry) → Prop
  | nothing {C : List ℕ} : Edit m d d' (fun _ => False) C → Unused m d C → Change m dirc d d' none
  | removed {n : ℕ} {loc : Loc} {l : List ℕ} : LiveAt m d dirc n loc →
      Owns m d (entryAt d loc) l → Removed m d d' loc l → Change m dirc d d' none
  | renamed {n : ℕ} {loc : Loc} {newName : CString} : LiveAt m d dirc n loc →
      (entryAt d loc).isDir = false → Edit m d d' (fun x => x = loc) [] →
      entryAt d' loc = renamedEntry (entryAt d loc) newName →
      Change m dirc d d' (some (loc, renamedEntry (entryAt d loc) newName))
  | created {k : ℕ} {loc : Loc} {e : RawDirEntry} {a : Chained} :
      FirstTake (slotAt m (fatAt m d) dirc) d freeVerdict k loc → Created m d d' loc e a →
      Unused m d a.clusters → e.isEnd = false →
      (e.isDir = true → ∀ n loc', ¬ LiveAt m d' e.firstCluster.toNat n loc') →
      Change m dirc d d' (some (loc, e))

theorem Change.refl (m : Mount) (dirc : ℕ) (d : Disk) : Change m dirc d d none :=
  .nothing (.refl m d) fun _ h => absurd h List.not_mem_nil

/-- An edit elsewhere leaves what a search in a directory finds. -/
theorem Edit.named {m : Mount} {d d' : Disk} {S : Loc → Prop} {C : List ℕ}
    (hedit : Edit m d d' S C) (hv : m.Valid) {node : ℕ} (hdir : DirOk m (fatAt m d) node)
    (hdis : ∀ ld, ChainOf m d node ld → List.Disjoint ld C)
    (hS : ∀ n x, slotAt m (fatAt m d) node n = some x → ¬ S x)
    {verdict : RawDirEntry → Verdict} {loc : Loc} (hnamed : Named m d node verdict loc) :
    Named m d' node verdict loc ∧ entryAt d' loc = entryAt d loc := by
  obtain ⟨n, hloc, htake, hbefore⟩ := hnamed
  have hslot := hedit.slotAt_eq hdir hdis
  have hentry {k : ℕ} {x : Loc} (hx : slotAt m (fatAt m d) node k = some x) :
      entryAt d' x = entryAt d x := hedit.entryAt_eq hv hdir hdis hx (hS k x hx)
  refine ⟨⟨n, (hslot n).trans hloc, ?_, fun k hk x hx => ?_⟩, hentry hloc⟩
  · rw [hentry hloc]
    exact htake
  · rw [hslot k] at hx
    rw [hentry hx]
    exact hbefore k hk x hx

section Change

variable {m : Mount} {d d' : Disk} (hw : WellFormed m d) {dirc : ℕ} (hreach : Reach m d dirc)
include hw hreach

/-- What is live behind a renamed file, in a directory still reached. -/
theorem liveAt_of_renamed {n : ℕ} {loc : Loc} {newName : CString}
    (hlive : LiveAt m d dirc n loc) (hfile : (entryAt d loc).isDir = false)
    (hedit : Edit m d d' (fun x => x = loc) [])
    (hentry : entryAt d' loc = renamedEntry (entryAt d loc) newName) {node k : ℕ} {loc' : Loc}
    (hnode : Reach m d' node) (hlive' : LiveAt m d' node k loc') :
    Reach m d node ∧ LiveAt m d node k loc' := by
  have hs := hw.toSound
  have hunused : Unused m d [] := fun _ h => absurd h List.not_mem_nil
  by_cases hkeeps : (entryAt d' loc).isDeleted = false
  · -- the file is there under its new name
    have hbody : ∀ x, x = loc → SameBody (entryAt d x) (entryAt d' x) := by
      rintro x rfl
      rw [hentry] at hkeeps ⊢
      exact sameBody_renamedEntry hlive.2.1 hfile hkeeps
    have hnode' := (reach_iff_of_rename hs hedit hunused hbody).mp hnode
    exact ⟨hnode', (liveAt_iff_of_rename hs hedit hunused hbody hnode').mp hlive'⟩
  · -- the new name reads as the deletion mark, and the file is gone
    obtain ⟨l, howns⟩ := hs.owns loc (hlive.live hreach)
    have hgone : (entryAt d' loc).live = false := by simp [RawDirEntry.live, hkeeps]
    have hsub := List.nil_subset l
    have hkept := reach_of_removal hs hreach hlive howns hedit hsub hgone hnode
    exact ⟨hkept.1, (Forest.liveAt_of_remove (kept_slot hs hreach hlive howns hedit hsub)
      (kept_entry hs hreach hlive howns hedit hsub)
      (show ¬ (entryAt d' loc).live = true by simp [hgone])
      (entryKind.not_isEnd_of_live _ hlive.2.1) hkept hlive').1⟩

/-- **What is live after a change.** It is the record the change put in, or it was live
before in the same place and under the same record. -/
theorem Change.liveAt {put : Option (Loc × RawDirEntry)} (h : Change m dirc d d' put)
    {node n : ℕ} {loc : Loc} (hnode : Reach m d' node) (hlive : LiveAt m d' node n loc) :
    node = dirc ∧ put = some (loc, entryAt d' loc) ∨
      Reach m d node ∧ LiveAt m d node n loc ∧ entryAt d' loc = entryAt d loc := by
  have hs := hw.toSound
  have hv := hs.valid
  cases h with
  | nothing hedit hunused =>
      have hbody : ∀ x, False → SameBody (entryAt d x) (entryAt d' x) := fun _ h => h.elim
      have hnode' := (reach_iff_of_rename hs hedit hunused hbody).mp hnode
      have hlive' := (liveAt_iff_of_rename hs hedit hunused hbody hnode').mp hlive
      exact Or.inr ⟨hnode', hlive', hedit.entryAt_eq hv (hs.dirOk hnode')
        (fun _ hld => hunused.disjoint_chain hld) hlive'.1 id⟩
  | @removed n₀ loc₀ l hlive₀ howns hremoved =>
      obtain ⟨hgone, -⟩ := hremoved.live_eq_false
      have hsub := List.Subset.refl l
      have hkept := reach_of_removal hs hreach hlive₀ howns hremoved.edit hsub hgone hnode
      obtain ⟨hlive', hne⟩ := Forest.liveAt_of_remove
        (kept_slot hs hreach hlive₀ howns hremoved.edit hsub)
        (kept_entry hs hreach hlive₀ howns hremoved.edit hsub)
        (show ¬ (entryAt d' loc₀).live = true by simp [hgone])
        (entryKind.not_isEnd_of_live _ hlive₀.2.1) hkept hlive
      exact Or.inr ⟨hkept.1, hlive',
        kept_entry hs hreach hlive₀ howns hremoved.edit hsub node n loc hkept hlive'.1 hne⟩
  | @renamed n₀ loc₀ newName hlive₀ hfile hedit hentry =>
      obtain ⟨hnode', hlive'⟩ := liveAt_of_renamed hw hreach hlive₀ hfile hedit hentry hnode hlive
      by_cases hne : loc = loc₀
      · obtain rfl := hne
        exact Or.inl ⟨(hs.slotAt_inj hnode' hreach hlive'.1 hlive₀.1).1, by rw [hentry]⟩
      · exact Or.inr ⟨hnode', hlive', hedit.entryAt_eq hv (hs.dirOk hnode')
          (fun _ _ => List.disjoint_nil_right _) hlive'.1 hne⟩
  | @created k loc₀ e a htake hcreated hunused hend hbelow =>
      have hbelow' : (entryAt d' loc₀).live = true → (entryAt d' loc₀).isDir = true →
          ∀ n loc', ¬ LiveAt m d' (entryAt d' loc₀).firstCluster.toNat n loc' := by
        rw [hcreated.entry]
        exact fun _ => hbelow
      rcases reach_of_insertion hw hcreated.edit hunused hbelow' hnode with
        hnode' | ⟨hlive₀, hdir, rfl⟩
      · have hslot : slotAt m (fatAt m d) node n = some loc :=
          (insert_slot hs hcreated.edit hunused node hnode' n).symm.trans hlive.1
        rcases Forest.liveAt_of_insert (insert_slot hs hcreated.edit hunused)
          (insert_entry hs hcreated.edit hunused) hw.forest_tail hnode' hlive with rfl | hlive'
        · exact Or.inl ⟨(hs.slotAt_inj hnode' hreach hslot htake.1).1, by rw [hcreated.entry]⟩
        · by_cases hne : loc = loc₀
          · obtain rfl := hne
            exact Or.inl ⟨(hs.slotAt_inj hnode' hreach hslot htake.1).1, by rw [hcreated.entry]⟩
          · exact Or.inr ⟨hnode', hlive',
              insert_entry hs hcreated.edit hunused node n loc hnode' hslot hne⟩
      · exact absurd hlive (hbelow' hlive₀ hdir n loc)

/-- A search in another directory than the one changed, and not in the one removed, finds
what it found. -/
theorem Change.named {put : Option (Loc × RawDirEntry)} (h : Change m dirc d d' put) {node : ℕ}
    (hnode : Reach m d node) (hne : node ≠ dirc)
    (hchild : ∀ n loc, LiveAt m d dirc n loc → (entryAt d loc).isDir = true →
      (entryAt d loc).firstCluster.toNat ≠ node)
    {verdict : RawDirEntry → Verdict} {loc : Loc} (hnamed : Named m d node verdict loc) :
    Named m d' node verdict loc ∧ entryAt d' loc = entryAt d loc := by
  have hs := hw.toSound
  have hdirOk := hs.dirOk hnode
  have hother {n k : ℕ} {loc₀ : Loc} (hloc₀ : slotAt m (fatAt m d) dirc n = some loc₀) {x : Loc}
      (hx : slotAt m (fatAt m d) node k = some x) : ¬ x = loc₀ := by
    rintro rfl
    exact hne (hs.slotAt_inj hnode hreach hx hloc₀).1
  cases h with
  | nothing hedit hunused =>
      exact hedit.named hs.valid hdirOk (fun _ hld => hunused.disjoint_chain hld)
        (fun _ _ _ h => h) hnamed
  | removed hlive howns hremoved =>
      exact hremoved.edit.named hs.valid hdirOk
        (fun _ hld => hs.dir_disjoint hnode hld (hlive.live hreach) howns (hchild _ _ hlive))
        (fun _ _ hx => hother hlive.1 hx) hnamed
  | renamed hlive _ hedit _ =>
      exact hedit.named hs.valid hdirOk (fun _ _ => List.disjoint_nil_right _)
        (fun _ _ hx => hother hlive.1 hx) hnamed
  | created htake hcreated hunused _ _ =>
      exact hcreated.edit.named hs.valid hdirOk (fun _ hld => hunused.disjoint_chain hld)
        (fun _ _ hx => hother htake.1 hx) hnamed

end Change

/-! ## Regular calls -/

/-- The clusters a call takes are data clusters: enough of them are free in the table as
it is searched, or nothing else is. What a write searches is the table without the
clusters of the file it replaces. A directory's cluster, if one is free, is cleared
behind its first sector. -/
def Op.Regular (s : System) : Op → Prop
  | .write name _ size => size < 2 ^ 32 ∧
      ∃ l, Replaced s.driver.mount s.disk s.driver.currentDirCluster name l ∧
        Supplies s.driver.mount.totalClusters (DataCluster s.driver.mount)
          (freeList (loaded s.driver.mount s.disk (s.driver.fatBuf .write)) l)
          (clustersFor s.driver.mount size)
  | .mkdir _ => Supplies s.driver.mount.totalClusters (DataCluster s.driver.mount)
        (loaded s.driver.mount s.disk (s.driver.fatBuf .mkdir)) 1 ∧
      (nextFree s.driver s.disk .mkdir ≠ 0 →
        Cleared s.driver.mount s.disk (nextFree s.driver s.disk .mkdir))
  | _ => True

/-- Every geometry with one sector to a cluster clears its directories. -/
theorem Op.HasRoom.regular_mkdir {s : System} {name : CString} (hspc : s.driver.mount.spc = 1)
    (hroom : (Op.mkdir name).HasRoom s) : (Op.mkdir name).Regular s := by
  refine ⟨Or.inl ?_, fun _ => cleared_of_spc_eq_one hspc _ _⟩
  rw [show freeIn (DataCluster s.driver.mount) _ = freeClusters s.driver.mount _ from rfl,
    freeClusters_loaded]
  exact hroom

section Calls

variable {st st' : Driver} {d : Disk} (hready : Ready st d) {fuel : ℕ} {r : ℤ}
  {writes : List (ℕ × Sector)}
include hready

/-- Removing an entry takes a record out, or changes nothing. -/
theorem removeEntry_change {owner : Owner} {verdict : RawDirEntry → Verdict}
    (hlive : ∀ loc, Named st.mount d st.currentDirCluster verdict loc →
      ∃ n, LiveAt st.mount d st.currentDirCluster n loc)
    (h : (removeEntry owner verdict fuel st).Returns d (r, st') writes) :
    (∃ fatBuf, st' = st.keepBuf owner fatBuf) ∧
      Change st.mount st.currentDirCluster d (applyWrites writes d) none := by
  obtain ⟨hst, ⟨-, -, rfl⟩ | ⟨loc, n, l, -, hliveAt, howns, -, rfl⟩⟩ :=
    removeEntry_outcome hready.sound hready.cwd hlive h
  · exact ⟨hst, .refl _ _ _⟩
  · exact ⟨hst, .removed hliveAt howns
      (removed_of_removeWrites (hready.sound.walks hready.cwd) hliveAt.1 howns _)⟩

theorem fatDelete_change {name : CString} (h : (fatDelete fuel st name).Returns d (r, st') writes) :
    (∃ fatBuf, st' = st.keepBuf .delete fatBuf) ∧
      Change st.mount st.currentDirCluster d (applyWrites writes d) none :=
  removeEntry_change hready (fun _ hnamed => hnamed.file.1) h

theorem fatRmdir_change {name : CString} (h : (fatRmdir fuel st name).Returns d (r, st') writes) :
    (∃ fatBuf, st' = st.keepBuf .rmdir fatBuf) ∧
      Change st.mount st.currentDirCluster d (applyWrites writes d) none :=
  removeEntry_change hready
    (fun _ hnamed => (hnamed.dir hready.wellFormed hready.cwd).1) h

/-- Renaming gives the file that is found the new name, or changes nothing. -/
theorem fatRename_change {oldName newName : CString}
    (h : (fatRename fuel st oldName newName).Returns d (r, st') writes) :
    (∃ fatBuf, st' = st.keepBuf .rename fatBuf) ∧
      ∃ put, Change st.mount st.currentDirCluster d (applyWrites writes d) put ∧
        ∀ loc e, put = some (loc, e) →
          Named st.mount d st.currentDirCluster (fileVerdict oldName) loc ∧
            e = renamedEntry (entryAt d loc) newName := by
  have hwalk := hready.sound.walks hready.cwd
  obtain ⟨hst, ⟨-, -, rfl⟩ | ⟨loc, hnamed, -, rfl⟩⟩ := fatRename_outcome hwalk h
  · exact ⟨hst, none, .refl _ _ _, nofun⟩
  · obtain ⟨⟨n, hlive⟩, hfile, -⟩ := hnamed.file
    obtain ⟨hedit, hentry, -⟩ := slotWrite_effect hwalk hlive.1 (renamedEntry (entryAt d loc) newName)
    refine ⟨hst, _, .renamed hlive hfile hedit hentry, fun loc' e heq => ?_⟩
    obtain ⟨rfl, rfl⟩ := Prod.mk.inj (Option.some.inj heq)
    exact ⟨hnamed, rfl⟩

/-- A store that gives up for want of clusters has written to clusters that were free. -/
theorem edit_of_gaveUp {data : ℕ → UInt8} {size n : ℕ} {a : Chained}
    (halloc : tableAlloc st.mount d (st.fatBuf .write) n = .ok a) :
    Edit st.mount d (applyWrites (fileWrites st.mount data size 0 a.clusters) d)
        (fun _ => False) a.clusters ∧
      Copies st.mount (applyWrites (fileWrites st.mount data size 0 a.clusters) d) := by
  have hv := hready.sound.valid
  have hclusters := clusters_of_tableAlloc halloc
  have hlow : ∀ lba, st.mount.fatStart ≤ lba → lba < st.mount.rootStart →
      applyWrites (fileWrites st.mount data size 0 a.clusters) d lba = d lba := by
    intro lba _ hlt
    refine applyWrites_of_forall_ne fun w hw haddr => ?_
    obtain ⟨j, c, k, hj, hk, -, rfl⟩ := mem_fileWrites.mp hw
    obtain ⟨h2, hc⟩ := hclusters c (List.mem_of_getElem? hj)
    have hle := hv.dataStart_le_clusterLba h2 hc hk
    have hdata := hv.dataStart_eq
    simp only at haddr
    omega
  exact ⟨.of_writes hclusters (fun _ hw => fileWrites_belowOrIn hw)
      fun c hload _ => fatAt_congr hv hlow hload,
    copies_of_outside hv hlow hready.wellFormed.copies⟩

/-- The store behind the delete puts a file in, or changes nothing. -/
theorem storeFile_change {name : CString} {data : ℕ → UInt8} {size : ℕ} (hsize : size < 2 ^ 32)
    (hsupplies : Supplies st.mount.totalClusters (DataCluster st.mount)
      (loaded st.mount d (st.fatBuf .write)) (clustersFor st.mount size)) {taken : List ℕ}
    (h : (storeFile fuel st name data size).Returns d ((r, taken), st') writes) :
    Ready st' (applyWrites writes d) ∧ (∃ fatBuf, st' = st.keepBuf .write fatBuf) ∧
      ∃ put, Change st.mount st.currentDirCluster d (applyWrites writes d) put ∧
        ∀ loc e, put = some (loc, e) →
          clustersFor st.mount size ≤ (freeClusters st.mount (fatAt st.mount d)).card ∧
            Named st.mount d st.currentDirCluster freeVerdict loc ∧
              ∃ c, e = newEntry name 0x00 c size := by
  have hs := hready.sound
  have hwalk := hs.walks hready.cwd
  obtain ⟨a, halloc, -, rfl, hcases⟩ := storeFile_outcome hwalk hsize h
  have hunused := unused_of_tableAlloc halloc
  by_cases hdone : a.complete = true
  · have hroom := room_of_supplies hsupplies halloc hdone
    have hready' := hready.storeFile hsize hroom h
    refine ⟨hready', ⟨_, rfl⟩, ?_⟩
    rcases hcases with ⟨hfalse, -⟩ | ⟨-, -, -, rfl⟩ | ⟨loc, -, ⟨k, htake⟩, -, rfl⟩
    · rw [hdone] at hfalse
      exact absurd hfalse (by decide)
    · exact ⟨none, .nothing (edit_of_storeWrites hwalk halloc data size _) hunused, nofun⟩
    · have hcreated := created_of_storeWrites hwalk halloc htake.1 data size
        (newEntry name 0x00 (a.clusters.headD 0) size)
      refine ⟨_, .created htake hcreated hunused (newEntry_flags name 0x00 _ size).1
        (fun hdir => absurd hdir (by simp [RawDirEntry.isDir, newEntry])), fun loc' e heq => ?_⟩
      obtain ⟨rfl, rfl⟩ := Prod.mk.inj (Option.some.inj heq)
      exact ⟨hroom, ⟨k, htake⟩, _, rfl⟩
  · rcases hcases with ⟨-, -, rfl⟩ | ⟨hdone', -⟩ | ⟨_, hdone', -⟩
    · obtain ⟨hedit, hcopies⟩ := edit_of_gaveUp hready halloc
      exact ⟨ready_keepBuf_iff.mpr (hready.edit_unused hedit hunused hcopies), ⟨_, rfl⟩, none,
        .nothing hedit hunused, nofun⟩
    · exact absurd hdone' hdone
    · exact absurd hdone' hdone

/-- Making a directory puts its record in, or changes nothing. -/
theorem fatMkdir_change {name : CString}
    (hsupplies : Supplies st.mount.totalClusters (DataCluster st.mount)
      (loaded st.mount d (st.fatBuf .mkdir)) 1)
    (hclear : nextFree st d .mkdir ≠ 0 → Cleared st.mount d (nextFree st d .mkdir))
    (h : (fatMkdir fuel st name).Returns d (r, st') writes) :
    Ready st' (applyWrites writes d) ∧ (∃ fatBuf, st' = st.keepBuf .mkdir fatBuf) ∧
      ∃ put, Change st.mount st.currentDirCluster d (applyWrites writes d) put ∧
        ∀ loc e, put = some (loc, e) → nextFree st d .mkdir ≠ 0 ∧
          Named st.mount d st.currentDirCluster freeVerdict loc ∧
            ∃ c, e = newEntry name 0x10 c 0 := by
  obtain ⟨taken, htaken⟩ := fatMkdir_returns_iff.mp h
  obtain ⟨a, halloc, hst, hcases⟩ := fatMkdirTaken_outcome (hready.sound.walks hready.cwd) htaken
  by_cases hdone : a.complete = true
  · have hroom := room_of_supplies hsupplies halloc hdone
    have hsome : nextFree st d .mkdir ≠ 0 := by
      rcases hcases with ⟨hfalse, -⟩ | ⟨c, -, hclusters, -⟩
      · rw [hdone] at hfalse
        exact absurd hfalse (by decide)
      · rw [nextFree_eq hclusters halloc]
        have := (clusters_of_tableAlloc halloc c (hclusters ▸ List.mem_singleton_self c)).1
        omega
    refine ⟨hready.fatMkdir_of_cleared hroom (hclear hsome) h, hst, ?_⟩
    obtain ⟨-, -, hcases⟩ := fatMkdir_created hready hroom h
    rcases hcases with ⟨-, C, hedit, hunused, -⟩ |
      ⟨c, k, loc, a, -, -, hok, -, hunused, htake, hcreated, -, hsector, -⟩
    · exact ⟨none, .nothing hedit hunused, nofun⟩
    · have hbelow := not_liveAt_created hcreated hok hsector
      rw [hcreated.entry] at hbelow
      refine ⟨_, .created htake hcreated hunused (newEntry_flags name 0x10 c 0).1
        (fun _ => hbelow), fun loc' e heq => ?_⟩
      obtain ⟨rfl, rfl⟩ := Prod.mk.inj (Option.some.inj heq)
      exact ⟨hsome, ⟨k, htake⟩, c, rfl⟩
  · rcases hcases with ⟨-, -, -, rfl⟩ | ⟨_, hdone', -⟩
    · obtain ⟨fatBuf, rfl⟩ := hst
      exact ⟨ready_keepBuf_iff.mpr hready, ⟨fatBuf, rfl⟩, none, .refl _ _ _, nofun⟩
    · exact absurd hdone' hdone

/-- What is live behind a delete is not the file it found. -/
theorem not_named_of_deleted {name : CString}
    (h : (fatDelete fuel st name).Returns d (r, st') writes) {loc : Loc}
    (hlive : (entryAt (applyWrites writes d) loc).live = true) :
    ¬ Named st.mount d st.currentDirCluster (fileVerdict name) loc := by
  rintro ⟨k, htake⟩
  obtain ⟨-, ⟨hnone, -, -⟩ | ⟨loc₀, n, l, ⟨k', htake'⟩, hliveAt, howns, -, rfl⟩⟩ :=
    removeEntry_outcome hready.sound hready.cwd (fun _ hnamed => hnamed.file.1) h
  · exact hnone loc ⟨k, htake⟩
  · obtain ⟨-, rfl⟩ := htake.unique htake'
    have hremoved := removed_of_removeWrites (hready.sound.walks hready.cwd) hliveAt.1 howns
      (st.fatBuf .delete)
    rw [hremoved.live_eq_false.1] at hlive
    exact absurd hlive (by decide)

/-- A slot that is free behind the delete was free before it, or held the file. -/
theorem named_free_of_deleted {name : CString}
    (h : (fatDelete fuel st name).Returns d (r, st') writes) {loc : Loc}
    (hnamed : Named st.mount (applyWrites writes d) st.currentDirCluster freeVerdict loc) :
    (∃ loc, Named st.mount d st.currentDirCluster freeVerdict loc) ∨
      ∃ loc, Named st.mount d st.currentDirCluster (fileVerdict name) loc := by
  obtain ⟨-, ⟨-, -, rfl⟩ | ⟨loc₀, _, _, hfile, -⟩⟩ :=
    removeEntry_outcome hready.sound hready.cwd (fun _ hnamed => hnamed.file.1) h
  · exact Or.inl ⟨loc, hnamed⟩
  · exact Or.inr ⟨loc₀, hfile⟩

/-- Room behind the delete is room for the write. -/
theorem fits_of_deleted {name : CString} (h : (fatDelete fuel st name).Returns d (r, st') writes)
    {l : List ℕ} (hreplaced : Replaced st.mount d st.currentDirCluster name l) {n : ℕ}
    (hroom : n ≤ (freeClusters st.mount (fatAt st.mount (applyWrites writes d))).card) :
    Fits st.mount d st.currentDirCluster name n := by
  refine ⟨l, hreplaced, hroom.trans (Finset.card_le_card fun c hc => ?_)⟩
  obtain ⟨hok, hfree⟩ := mem_freeClusters.mp hc
  have hlt := hok.lt
  let fatBuf : FatBuf := fun _ => 0
  have hentry : fatNextCluster (loaded st.mount (applyWrites writes d) fatBuf) c =
      fatAt st.mount (applyWrites writes d) c := fatNextCluster_loaded hok.2.2
  rw [← hentry, table_after_delete hready.sound hready.cwd h hreplaced,
    fatNextCluster_freeList] at hfree
  refine Finset.mem_filter.mpr ⟨Finset.mem_range.mpr hlt, hok, ?_⟩
  by_cases hmem : c ∈ l
  · exact Or.inr hmem
  · rw [if_neg hmem, fatNextCluster_loaded hok.2.2] at hfree
    exact Or.inl hfree

/-- A regular write is two changes: its delete, and its store. -/
theorem fatWrite_changes {name : CString} {data : ℕ → UInt8} {size : ℕ}
    (hregular : (Op.write name data size).Regular ⟨st, d⟩)
    (h : (fatWrite fuel st name data size).Returns d (r, st') writes) :
    Ready st' (applyWrites writes d) ∧ st'.mount = st.mount ∧
      st'.currentDirCluster = st.currentDirCluster ∧ st'.currentPath = st.currentPath ∧
      ∃ d₁ put, Ready st d₁ ∧ Change st.mount st.currentDirCluster d d₁ none ∧
        Change st.mount st.currentDirCluster d₁ (applyWrites writes d) put ∧
        (∀ loc, (entryAt d₁ loc).live = true →
          ¬ Named st.mount d st.currentDirCluster (fileVerdict name) loc) ∧
        ∀ loc e, put = some (loc, e) →
          Fits st.mount d st.currentDirCluster name (clustersFor st.mount size) ∧
          ((∃ loc, Named st.mount d st.currentDirCluster freeVerdict loc) ∨
            ∃ loc, Named st.mount d st.currentDirCluster (fileVerdict name) loc) ∧
          ∃ c, e = newEntry name 0x00 c size := by
  obtain ⟨hsize, l, hreplaced, hsupplies⟩ := hregular
  obtain ⟨code, fatBuf, taken, first, second, hdelete, hstore, rfl, -, -⟩ :=
    fatWrite_split hready.sound hready.cwd h
  have hready₁ := hready.fatDelete hdelete
  rw [← table_after_delete hready.sound hready.cwd hdelete hreplaced] at hsupplies
  obtain ⟨hready', ⟨fatBuf', rfl⟩, put, hchange, hput⟩ :=
    storeFile_change hready₁ hsize hsupplies hstore
  rw [applyWrites_append]
  refine ⟨hready', rfl, rfl, rfl, applyWrites first d, put, ready_keepBuf_iff.mp hready₁,
    (fatDelete_change hready hdelete).2, hchange,
    fun _ hlive => not_named_of_deleted hready hdelete hlive, fun loc e heq => ?_⟩
  obtain ⟨hroom, hnamed, hentry⟩ := hput loc e heq
  exact ⟨fits_of_deleted hready hdelete hreplaced hroom,
    named_free_of_deleted hready hdelete hnamed, hentry⟩

end Calls

/-- Every regular call keeps the volume well formed, whatever its geometry. -/
theorem Ready.step_regular {s s' : System} (hready : Ready s.driver s.disk)
    (hstep : Step (fun s op => op.Regular s) s s') : Ready s'.driver s'.disk := by
  obtain ⟨op, hregular, hreturns⟩ := hstep
  cases op with
  | write name data size => exact (fatWrite_changes hready hregular hreturns).1
  | delete name => exact hready.fatDelete hreturns
  | rename oldName newName => exact hready.fatRename hreturns
  | mkdir name => exact (fatMkdir_change hready hregular.1 hregular.2 hreturns).1
  | rmdir name => exact hready.fatRmdir hreturns
  | cd name => exact hready.fatCd hreturns

/-- One free data cluster supplies an allocation of one. -/
theorem supplies_of_free {m : Mount} {d : Disk} {c : ℕ} (hok : DataCluster m c)
    (hfree : fatAt m d c = 0) (fatBuf : FatBuf) :
    Supplies m.totalClusters (DataCluster m) (loaded m d fatBuf) 1 := by
  left
  rw [show freeIn (DataCluster m) _ = freeClusters m _ from rfl, freeClusters_loaded]
  exact room_of_free hok hfree

theorem supplies_blank : Supplies smallMount.totalClusters (DataCluster smallMount)
    (loaded smallMount blank fun _ => 0) 1 :=
  supplies_of_free (c := 2) (by decide) (fatAt_blank _ _) _

theorem regular_write_blank : (Op.write nameA (fun _ => 7) 1).Regular blankSystem := by
  refine ⟨by decide, [], Or.inr ⟨not_named_blank _ _ _, rfl⟩, ?_⟩
  exact supplies_blank

theorem regular_write_oneFile : (Op.write nameB (fun _ => 9) 1).Regular oneFile := by
  obtain ⟨hdisk, hmount, hcwd⟩ := oneFile_eq
  rw [Op.Regular, hdisk, hmount, hcwd]
  exact ⟨by decide, [], Or.inr ⟨not_named_fileDisk, rfl⟩,
    supplies_of_free (c := 3) (by decide) (by decide +kernel) _⟩

end MasterOS.Fat
