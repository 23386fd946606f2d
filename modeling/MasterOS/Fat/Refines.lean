/-
# The calls on the store

What each call does to the store its volume stands for. A name goes, comes or moves, or
nothing does, and the code that the call returns says which.
-/

import MasterOS.Fat.Files

namespace MasterOS.Fat

open MasterOS.Device MasterOS.Device.Prog MasterOS.Math

/-! ## Moves of the store -/

section Trees

variable {m : Mount} {d d' : Disk} {F : Files}

theorem treeMoves_refl (hnodes : ∀ node, Reach m d' node → Reach m d node) :
    TreeMoves m d d' F.cwd none none F.tree F.tree where
  other _ _ _ _ := rfl
  same _ _ _ := rfl
  went _ h := (by cases h)
  came _ _ h := (by cases h)
  fresh node hnode hnot := absurd (hnodes node hnode) hnot

/-- A name that goes. -/
theorem treeMoves_erase (hnodes : ∀ node, Reach m d' node → Reach m d node) (loc : Loc) :
    TreeMoves m d d' F.cwd (some loc) none F.tree (F.set (entryAt d loc).key none).tree where
  other node name _ hne := by rw [Store.set_tree, if_neg fun h => hne h.1]
  same name hname _ := by rw [Store.set_tree, if_neg fun h => hname loc rfl h.2]
  went x hx _ := by
    obtain rfl := Option.some.inj hx
    rw [Store.set_tree, if_pos ⟨rfl, rfl⟩]
  came _ _ h := (by cases h)
  fresh node hnode hnot := absurd (hnodes node hnode) hnot

/-- A file renamed. -/
theorem treeMoves_rename (hnodes : ∀ node, Reach m d' node → Reach m d node) (loc : Loc)
    {e : RawDirEntry} {node : Node ℕ UInt8} (hstands : StandsFor m d' e node) :
    TreeMoves m d d' F.cwd (some loc) (some (loc, e)) F.tree
      ((F.set (entryAt d loc).key none).set e.key (some node)).tree where
  other dir name _ hne := by
    rw [Store.set_tree, if_neg fun h => hne h.1, Store.set_tree, if_neg fun h => hne h.1]
  same name hgone hput := by
    rw [Store.set_tree, if_neg fun h => hput loc e rfl h.2, Store.set_tree,
      if_neg fun h => hgone loc rfl h.2]
  went x hx hput := by
    obtain rfl := Option.some.inj hx
    rw [Store.set_tree, if_neg fun h => hput loc e rfl h.2, Store.set_tree, if_pos ⟨rfl, rfl⟩]
  came x e' h := by
    obtain ⟨rfl, rfl⟩ := Prod.mk.inj (Option.some.inj h)
    exact ⟨node, by rw [Store.set_tree, if_pos ⟨rfl, rfl⟩], hstands⟩
  fresh dir hdir hnot := absurd (hnodes dir hdir) hnot

/-- A name that comes, over a tree in which the directories that were not there are empty. -/
theorem treeMoves_put {G : Files} (hcwd : G.cwd = F.cwd)
    (hsame : ∀ dir name, Reach m d dir → G.tree dir name = F.tree dir name)
    (hhere : Reach m d F.cwd)
    (hfresh : ∀ dir, Reach m d' dir → ¬ Reach m d dir → ∀ name, G.tree dir name = none)
    (loc : Loc) {e : RawDirEntry} {node : Node ℕ UInt8} (hstands : StandsFor m d' e node) :
    TreeMoves m d d' F.cwd none (some (loc, e)) F.tree (G.set e.key (some node)).tree where
  other dir name hdir hne := by
    rw [Store.set_tree, if_neg fun h => hne (h.1.trans hcwd), hsame dir name hdir]
  same name _ hput := by
    rw [Store.set_tree, if_neg fun h => hput loc e rfl h.2, hsame _ name hhere]
  went _ h := (by cases h)
  came x e' h := by
    obtain ⟨rfl, rfl⟩ := Prod.mk.inj (Option.some.inj h)
    exact ⟨node, by rw [Store.set_tree, if_pos ⟨hcwd.symm, rfl⟩], hstands⟩
  fresh dir hdir hnot name := by
    have hne : dir ≠ G.cwd := fun heq => hnot (heq.trans hcwd ▸ hhere)
    rw [Store.set_tree, if_neg fun h => hne h.1, hfresh dir hdir hnot name]

end Trees

/-! ## The calls -/

/-- What a read replies. -/
def readReply (bytes : ℤ) (out : ℕ → UInt8) : Reply UInt8 :=
  if bytes < 0 then .failed else .content (bytesOf out bytes.toNat)

section Calls

variable {st st' : Driver} {d : Disk} {F : Files} (hF : Stands ⟨st, d⟩ F) {fuel : ℕ} {r : ℤ}
  {writes : List (ℕ × Sector)}
include hF

/-- Removing an entry takes its name away. -/
theorem Stands.removeEntry {owner : Owner} {verdict : RawDirEntry → Verdict}
    (hlive : ∀ loc, Named st.mount d st.currentDirCluster verdict loc →
      ∃ n, LiveAt st.mount d st.currentDirCluster n loc)
    (h : (removeEntry owner verdict fuel st).Returns d (r, st') writes) :
    (∀ loc, ¬ Named st.mount d st.currentDirCluster verdict loc) ∧ r = -1 ∧
        Stands ⟨st', applyWrites writes d⟩ F ∨
      ∃ loc, Named st.mount d st.currentDirCluster verdict loc ∧ r = 0 ∧
        Stands ⟨st', applyWrites writes d⟩ (F.set (entryAt d loc).key none) := by
  have hready : Ready st d := hF.ready
  have hready' := hready.removeEntry hlive h
  have hunique := hF.unique.change hready.wellFormed hready.cwd
    (removeEntry_change hready hlive h).2 nofun
  obtain ⟨⟨fatBuf, rfl⟩, ⟨hnone, hr, rfl⟩ | ⟨loc, n, l, hnamed, hliveAt, howns, hr, rfl⟩⟩ :=
    removeEntry_outcome hready.sound hready.cwd hlive h
  · exact Or.inl ⟨hnone, hr, hF.of_driver rfl rfl⟩
  · have hmoves := moves_of_removed hready.wellFormed hready.cwd hliveAt howns
      (removed_of_removeWrites (hready.sound.walks hready.cwd) hliveAt.1 howns (st.fatBuf owner))
    refine Or.inr ⟨loc, hnamed, hr, hF.moves rfl rfl hready' hunique hmoves rfl rfl ?_⟩
    rw [← show F.cwd = st.currentDirCluster from hF.cwd]
    exact treeMoves_erase (hmoves.reach_of_file nofun) loc

/-- A delete takes away the name of a file. -/
theorem Stands.delete {name : CString} (h : (fatDelete fuel st name).Returns d (r, st') writes) :
    (F.HasFile name.key ∧ r = 0 ∨ ¬ F.HasFile name.key ∧ r = -1) ∧
      Stands ⟨st', applyWrites writes d⟩ (F.dropFile name.key) := by
  rcases hF.removeEntry (fun _ hnamed => hnamed.file.1) h with
    ⟨hnone, hr, hF'⟩ | ⟨loc, hnamed, hr, hF'⟩
  · have hno : ¬ F.HasFile name.key := fun hfile => by
      obtain ⟨loc, hnamed⟩ := hF.hasFile_iff.mp hfile
      exact hnone loc hnamed
    rw [Store.dropFile_of_not_hasFile hno]
    exact ⟨Or.inr ⟨hno, hr⟩, hF'⟩
  · have hyes : F.HasFile name.key := hF.hasFile_iff.mpr ⟨loc, hnamed⟩
    rw [(RawDirEntry.matches_iff_key _ _).mp hnamed.file.2.2] at hF'
    rw [Store.dropFile_of_hasFile hyes]
    exact ⟨Or.inl ⟨hyes, hr⟩, hF'⟩

/-- Removing a directory takes its name away. -/
theorem Stands.rmdir {name : CString} (h : (fatRmdir fuel st name).Returns d (r, st') writes) :
    F.HasDir name.key ∧ r = 0 ∧ Stands ⟨st', applyWrites writes d⟩ (F.set name.key none) ∨
      ¬ F.HasDir name.key ∧ r = -1 ∧ Stands ⟨st', applyWrites writes d⟩ F := by
  have hdir (loc : Loc) (hnamed : Named st.mount d st.currentDirCluster (dirVerdict name) loc) :=
    hnamed.dir hF.ready.wellFormed hF.ready.cwd
  rcases hF.removeEntry (fun loc hnamed => (hdir loc hnamed).1) h with
    ⟨hnone, hr, hF'⟩ | ⟨loc, hnamed, hr, hF'⟩
  · refine Or.inr ⟨fun hhas => ?_, hr, hF'⟩
    obtain ⟨loc, hnamed⟩ := hF.hasDir_iff.mp hhas
    exact hnone loc hnamed
  · rw [(RawDirEntry.matches_iff_key _ _).mp (hdir loc hnamed).2.2] at hF'
    exact Or.inl ⟨hF.hasDir_iff.mpr ⟨loc, hnamed⟩, hr, hF'⟩

/-- A rename takes the name of a file away and gives the file another that is not in use. -/
theorem Stands.rename {oldName newName : CString} (hplain : Plain newName)
    (hnew : (Op.rename oldName newName).NewName ⟨st, d⟩)
    (h : (fatRename fuel st oldName newName).Returns d (r, st') writes) :
    (∃ content, F.here oldName.key = some (.file content) ∧
        (newName.key = oldName.key ∨ F.here newName.key = none) ∧ r = 0 ∧
        Stands ⟨st', applyWrites writes d⟩
          ((F.set oldName.key none).set newName.key (some (.file content)))) ∨
      ¬ F.HasFile oldName.key ∧ r = -1 ∧ Stands ⟨st', applyWrites writes d⟩ F := by
  have hready : Ready st d := hF.ready
  have hready' := hready.fatRename h
  have hwalk := hready.sound.walks hready.cwd
  obtain ⟨⟨fatBuf, rfl⟩, ⟨hnone, hr, rfl⟩ | ⟨loc, hnamed, hr, rfl⟩⟩ := fatRename_outcome hwalk h
  · refine Or.inr ⟨fun hfile => ?_, hr, hF.of_driver rfl rfl⟩
    obtain ⟨loc, hnamed⟩ := hF.hasFile_iff.mp hfile
    exact hnone loc hnamed
  · obtain ⟨⟨n, hlive⟩, hfile, hmatches⟩ := hnamed.file
    obtain ⟨content, hcontent, -, hsize, l, howns, hbytes⟩ := hF.here_of_file hnamed
    have hunshown : Unshown st.mount d st.currentDirCluster (fun x => x = loc)
        (storedName newName) := hnew loc hnamed
    have hkey : (entryAt d loc).key = oldName.key := (RawDirEntry.matches_iff_key _ _).mp hmatches
    obtain ⟨hedit, hentry, -⟩ := slotWrite_effect hwalk hlive.1
      (renamedEntry (entryAt d loc) newName)
    have hdeleted : (renamedEntry (entryAt d loc) newName).isDeleted = false := by
      simpa [RawDirEntry.isDeleted, renamedEntry] using hplain.1.split83_fst_zero_ne
    have hbody : SameBody (entryAt d loc) (renamedEntry (entryAt d loc) newName) :=
      sameBody_renamedEntry hlive.2.1 hfile hdeleted
    have hstored : (renamedEntry (entryAt d loc) newName).key = newName.key :=
      hplain.key_eq rfl rfl
    have hmoves := moves_of_renamed hready.wellFormed hready.cwd hlive hedit hentry hbody
    have hunique := hF.unique.change hready.wellFormed hready.cwd
      (.renamed hlive hfile hedit hentry) fun x e heq => by
        obtain ⟨rfl, rfl⟩ := Prod.mk.inj (Option.some.inj heq)
        exact hunshown
    have hstands : StandsFor st.mount
        (applyWrites [slotWrite d loc (renamedEntry (entryAt d loc) newName)] d)
        (renamedEntry (entryAt d loc) newName) (.file content) := by
      refine ⟨hbody.isDir.trans hfile, hsize, l,
        hbody.owns.mpr (hedit.owns howns (List.disjoint_nil_right l)), fun i hi => ?_⟩
      rw [chainByte_congr hready.sound.valid.spc_pos (fun c hc k hk => hedit.sector_kept
        hready.sound hready.cwd (fun x hx => ⟨n, hx ▸ hlive.1⟩) (hlive.live hready.cwd) hfile howns
        (List.disjoint_nil_right l) hc hk), hbytes i hi]
    refine Or.inl ⟨content, hcontent, ?_, hr,
      hF.moves rfl rfl hready' hunique hmoves rfl rfl ?_⟩
    · cases hhere : F.here newName.key with
      | none => exact Or.inr rfl
      | some node =>
          obtain ⟨k, x, hlivex, hkeyx, -⟩ := hF.of_here hhere
          by_cases hx : x = loc
          · exact Or.inl (hkeyx.symm.trans (hx ▸ hkey))
          · exact absurd ((hplain.sameName_iff _).mpr hkeyx) (hunshown k x hlivex hx)
    · rw [← show F.cwd = st.currentDirCluster from hF.cwd, ← hkey, ← hstored]
      exact treeMoves_rename
        (hmoves.reach_of_file fun x e heq => by
          obtain ⟨rfl, rfl⟩ := Prod.mk.inj (Option.some.inj heq)
          exact hbody.isDir.trans hfile) loc hstands

/-- Writes to free clusters leave what the volume stands for. -/
theorem Stands.nothing {d' : Disk} {C : List ℕ} (hready' : Ready st' d')
    (hmount : st'.mount = st.mount) (hcwd : st'.currentDirCluster = st.currentDirCluster)
    (hedit : Edit st.mount d d' (fun _ => False) C) (hunused : Unused st.mount d C) :
    Stands ⟨st', d'⟩ F := by
  have hready : Ready st d := hF.ready
  have hmoves := moves_of_nothing hready.wellFormed hready.cwd hedit hunused
  have hunique := hF.unique.change hready.wellFormed hready.cwd (.nothing hedit hunused) nofun
  refine hF.moves hmount hcwd hready' hunique hmoves rfl rfl ?_
  rw [← show F.cwd = st.currentDirCluster from hF.cwd]
  exact treeMoves_refl (hmoves.reach_of_file nofun)

/-- A record put in under a name that stood for nothing gives that name what it stands for.
A directory that was not there before has no names. -/
theorem Stands.created {d' : Disk} {k : ℕ} {loc : Loc} {e : RawDirEntry} {a : Chained}
    (hready' : Ready st' d') (hmount : st'.mount = st.mount)
    (hcwd : st'.currentDirCluster = st.currentDirCluster)
    (htake : FirstTake (slotAt st.mount (fatAt st.mount d) st.currentDirCluster) d freeVerdict k
      loc)
    (hcreated : Created st.mount d d' loc e a) (hunused : Unused st.mount d a.clusters)
    (hlive : e.live = true)
    (hbelow : e.isDir = true → ∀ n loc', ¬ LiveAt st.mount d' e.firstCluster.toNat n loc')
    (hno : F.here e.key = none) (G : Files) (hroot : G.root = F.root) (hhere : G.cwd = F.cwd)
    (hsame : ∀ dir name, Reach st.mount d dir → G.tree dir name = F.tree dir name)
    (hfresh : e.isDir = true → ∀ name, ¬ Reach st.mount d e.firstCluster.toNat →
      G.tree e.firstCluster.toNat name = none)
    {node : Node ℕ UInt8} (hstands : StandsFor st.mount d' e node) :
    Stands ⟨st', d'⟩ (G.set e.key (some node)) := by
  have hready : Ready st d := hF.ready
  have hw := hready.wellFormed
  have hmoves := moves_of_created hw hready.cwd htake hcreated hunused hlive hbelow
  have hunique := hF.unique.change hw hready.cwd
    (.created htake hcreated hunused (RawDirEntry.isEnd_of_live hlive) hbelow)
    fun x e' heq n y hlivey _ hshown => by
      obtain ⟨rfl, rfl⟩ := Prod.mk.inj (Option.some.inj heq)
      obtain ⟨node, hnode, -⟩ := hF.here hlivey
      rw [(sameName_iff_key _ _).mp hshown, hno] at hnode
      cases hnode
  refine hF.moves hmount hcwd hready' hunique hmoves hroot hhere ?_
  have hcwd' : F.cwd = st.currentDirCluster := hF.cwd
  rw [← hcwd']
  refine treeMoves_put hhere hsame (hcwd' ▸ hready.cwd) (fun dir hdir hnot name => ?_) loc hstands
  rcases hmoves.reach dir hdir with hold | ⟨x, e', heq, hisDir, rfl⟩
  · exact absurd hold hnot
  · obtain ⟨rfl, rfl⟩ := Prod.mk.inj (Option.some.inj heq)
    exact hfresh hisDir name hnot

/-- No record that a search passes before a free slot matches a name that stands for
nothing. -/
theorem Stands.skips {name : CString} (hno : F.here name.key = none) {n : ℕ} {loc : Loc}
    (hfree : FirstTake (slotAt st.mount (fatAt st.mount d) st.currentDirCluster) d freeVerdict n
      loc) {j : ℕ} (hj : j < n) {x : Loc}
    (hx : slotAt st.mount (fatAt st.mount d) st.currentDirCluster j = some x) :
    fileVerdict name (entryAt d x) = .skip := by
  have hends {i : ℕ} (hi : i < n) {y : Loc}
      (hy : slotAt st.mount (fatAt st.mount d) st.currentDirCluster i = some y) :=
    (hfree.before_free hi hy).1
  cases hverdict : fileVerdict name (entryAt d x) with
  | skip => rfl
  | stop => exact absurd hverdict (fileVerdict_ne_stop (hends hj hx))
  | take =>
      obtain ⟨hlive, -, hmatches⟩ := fileVerdict_eq_take_iff.mp hverdict
      obtain ⟨node, hnode, -⟩ := hF.here ⟨hx, hlive, fun i hi y hy =>
        Bool.eq_false_iff.mp (hends (lt_trans hi hj) hy)⟩
      rw [(RawDirEntry.matches_iff_key _ _).mp hmatches, hno] at hnode
      cases hnode

/-- The record that a store leaves stands for the data stored. -/
theorem Stands.stored {d' : Disk} {name : CString} (hplain : Plain name) {data : ℕ → UInt8}
    {size : ℕ} (hsize : size < 2 ^ 32) (hno : F.here name.key = none) {n : ℕ} {loc : Loc}
    {l : List ℕ} (hstored : Stored st.mount st.currentDirCluster d d' name data size n loc l) :
    StandsFor st.mount d' (entryAt d' loc) (.file (bytesOf data size)) := by
  have hnamed := hstored.named hplain.1 hplain.2 fun j hj x hx => hF.skips hno hstored.free hj hx
  obtain ⟨x, chain, ⟨_, hnamed'⟩, hsame, howns, hbytes⟩ :=
    hstored.contains hF.ready.sound.valid hsize hnamed
  obtain ⟨-, rfl⟩ := hnamed.choose_spec.unique hnamed'
  refine ⟨hnamed.file.2.1, by rw [length_bytesOf]; exact hsame, chain, howns, fun i hi => ?_⟩
  rw [length_bytesOf] at hi
  rw [hbytes i hi, getElem?_bytesOf data hi]

/-- The store behind the delete gives its name a file, or changes nothing. -/
theorem Stands.storeFile {name : CString} (hplain : Plain name) {data : ℕ → UInt8} {size : ℕ}
    (hsize : size < 2 ^ 32)
    (hsupplies : Supplies st.mount.totalClusters (DataCluster st.mount)
      (loaded st.mount d (st.fatBuf .write)) (clustersFor st.mount size))
    (hnone : clustersFor st.mount size ≤ (freeClusters st.mount (fatAt st.mount d)).card →
      (∃ loc, Named st.mount d st.currentDirCluster freeVerdict loc) → F.here name.key = none)
    {taken : List ℕ}
    (h : (storeFile fuel st name data size).Returns d ((r, taken), st') writes) :
    F.here name.key = none ∧ r = 0 ∧ Stands ⟨st', applyWrites writes d⟩
        (F.set name.key (some (.file (bytesOf data size)))) ∨
      r = -1 ∧ Stands ⟨st', applyWrites writes d⟩ F := by
  have hready : Ready st d := hF.ready
  have hs := hready.sound
  have hwalk := hs.walks hready.cwd
  have hready' := (storeFile_change hready hsize hsupplies h).1
  obtain ⟨a, halloc, -, rfl, hcases⟩ := storeFile_outcome hwalk hsize h
  have hunused := unused_of_tableAlloc halloc
  rcases hcases with ⟨-, hr, rfl⟩ | ⟨-, -, hr, rfl⟩ | ⟨loc, hdone, ⟨k, htake⟩, rfl, hwrites⟩
  · exact Or.inr ⟨hr, hF.nothing hready' rfl rfl (edit_of_gaveUp hready halloc).1 hunused⟩
  · exact Or.inr ⟨hr, hF.nothing hready' rfl rfl
      (edit_of_storeWrites hwalk halloc data size _) hunused⟩
  · have hroom := room_of_supplies hsupplies halloc hdone
    have hno := hnone hroom ⟨loc, k, htake⟩
    obtain ⟨n, x, l, hstored⟩ := stored_of_returns hs hready.cwd hsize hroom h
    obtain ⟨-, rfl⟩ := htake.unique hstored.free
    have hstands := hF.stored hplain hsize hno hstored
    rw [hwrites] at hstands hready' ⊢
    have hcreated := created_of_storeWrites hwalk halloc htake.1 data size
      (newEntry name 0x00 (a.clusters.headD 0) size)
    rw [hcreated.entry] at hstands
    obtain ⟨hlive, hfile, -⟩ := fileVerdict_eq_take_iff.mp
      ((fileVerdict_newEntry hplain.1 (a.clusters.headD 0) size).mpr hplain.2)
    have hkey : (newEntry name 0x00 (a.clusters.headD 0) size).key = name.key :=
      hplain.key_eq rfl rfl
    have hisFile (hdir : (newEntry name 0x00 (a.clusters.headD 0) size).isDir = true) : False :=
      absurd (hfile.symm.trans hdir) (by decide)
    rw [← hkey] at hno ⊢
    exact Or.inl ⟨hno, rfl, hF.created hready' rfl rfl htake hcreated hunused hlive
      (fun hdir => (hisFile hdir).elim) hno F rfl rfl (fun _ _ _ => rfl)
      (fun hdir => (hisFile hdir).elim) hstands⟩

/-- **A write replaces a file, or drops it.** -/
theorem Stands.write {name : CString} (hplain : Plain name) {data : ℕ → UInt8} {size : ℕ}
    (hregular : (Op.write name data size).Regular ⟨st, d⟩)
    (hnew : (Op.write name data size).NewName ⟨st, d⟩)
    (h : (fatWrite fuel st name data size).Returns d (r, st') writes) :
    ¬ F.HasDir name.key ∧ r = 0 ∧ Stands ⟨st', applyWrites writes d⟩
        (F.set name.key (some (.file (bytesOf data size)))) ∨
      r = -1 ∧ Stands ⟨st', applyWrites writes d⟩ (F.dropFile name.key) := by
  have hready : Ready st d := hF.ready
  obtain ⟨hsize, l, hreplaced, hsupplies⟩ := hregular
  obtain ⟨code, fatBuf, taken, first, second, hdelete, hstore, rfl, -, -⟩ :=
    fatWrite_split hready.sound hready.cwd h
  rw [← table_after_delete hready.sound hready.cwd hdelete hreplaced] at hsupplies
  obtain ⟨-, hF₁⟩ := hF.delete hdelete
  -- whatever could keep the name from being free was the file that went
  have hnone (hroom : clustersFor st.mount size ≤
        (freeClusters st.mount (fatAt st.mount (applyWrites first d))).card)
      (hslot : ∃ loc, Named st.mount (applyWrites first d) st.currentDirCluster freeVerdict loc) :
      (F.dropFile name.key).here name.key = none := by
    obtain ⟨loc, hnamed⟩ := hslot
    have hunshown := hnew (fits_of_deleted hready hdelete hreplaced hroom)
      (named_free_of_deleted hready hdelete hnamed)
    rw [Store.here_dropFile_eq_none_iff]
    rintro ⟨id, hid⟩
    obtain ⟨n, x, hlive, hkey, hdir, -⟩ := hF.of_here hid
    refine hunshown n x hlive (fun hx => ?_) ((hplain.sameName_iff _).mpr hkey)
    exact absurd (hx.file.2.1.symm.trans hdir) (by decide)
  rw [applyWrites_append]
  rcases hF₁.storeFile hplain hsize hsupplies hnone hstore with ⟨hno, rfl, hF'⟩ | ⟨hr, hF'⟩
  · rw [Store.dropFile_set] at hF'
    exact Or.inl ⟨Store.here_dropFile_eq_none_iff.mp hno, rfl, hF'⟩
  · exact Or.inr ⟨hr, hF'⟩

/-- A new directory is one that could not be reached, and has no names. -/
theorem Stands.mkdir {name : CString} (hplain : Plain name)
    (hregular : (Op.mkdir name).Regular ⟨st, d⟩) (hnew : (Op.mkdir name).NewName ⟨st, d⟩)
    (h : (fatMkdir fuel st name).Returns d (r, st') writes) :
    (∃ id, F.here name.key = none ∧ ¬ F.Reach id ∧ r = 0 ∧ Stands ⟨st', applyWrites writes d⟩
        ((F.clear id).set name.key (some (.dir id)))) ∨
      r = -1 ∧ Stands ⟨st', applyWrites writes d⟩ F := by
  have hready : Ready st d := hF.ready
  have hs := hready.sound
  obtain ⟨hready', -, -⟩ := fatMkdir_change hready hregular.1 hregular.2 h
  by_cases hroom : 1 ≤ (freeClusters st.mount (fatAt st.mount d)).card
  · obtain ⟨fatBuf, rfl, ⟨hr, C, hedit, hunused, -⟩ |
      ⟨c, k, loc, a, rfl, hfree, hok, hclusters, hunused, htake, hcreated, -, hsector, -⟩⟩ :=
      fatMkdir_created hready hroom h
    · exact Or.inr ⟨hr, hF.nothing hready' rfl rfl hedit hunused⟩
    · have hno : F.here name.key = none := by
        have hsome : nextFree st d .mkdir ≠ 0 := by
          have htwo := hok.1
          omega
        cases hhere : F.here name.key with
        | none => rfl
        | some node =>
            obtain ⟨n, x, hlive, hkey, -⟩ := hF.of_here hhere
            exact absurd ((hplain.sameName_iff _).mpr hkey)
              (hnew hsome ⟨loc, k, htake⟩ n x hlive id)
      have hunreached : ¬ Reach st.mount d c := by
        -- a directory below the root heads a chain, and this cluster was free
        intro hreach
        rcases hs.dirOk hreach with hroot | ⟨l, hchain⟩
        · have htwo := hok.1
          omega
        · have hmem : c ∈ a.clusters := hclusters ▸ List.mem_singleton_self c
          exact hunused.disjoint_chain hchain hchain.head_mem hmem
      have hfirst : (newEntry name 0x10 c 0).firstCluster.toNat = c :=
        firstCluster_newEntry name 0x10 (hok.lt.trans (by decide)) 0
      have hflags : ¬ ((newEntry name 0x10 c 0).isLabel = true ∧
          (newEntry name 0x10 c 0).isDir = true) := fun hboth => absurd hboth.1 (by
        simp [RawDirEntry.isLabel, newEntry, show ((0x10 : UInt8) &&& 0x08 != 0) = false by decide])
      obtain ⟨hlive, hdir, -⟩ := (dirVerdict_eq_take_iff hflags).mp
        ((dirVerdict_newEntry hplain.1 c).mpr hplain.2)
      have hkey : (newEntry name 0x10 c 0).key = name.key := hplain.key_eq rfl rfl
      have hbelow := not_liveAt_created hcreated hok hsector
      rw [hcreated.entry] at hbelow
      have hclear (dir : ℕ) (key : List UInt8) (hreach : Reach st.mount d dir) :
          (F.clear c).tree dir key = F.tree dir key := by
        have hne : dir ≠ c := fun heq => hunreached (heq ▸ hreach)
        rw [Store.clear_tree, if_neg hne]
      have hstands : StandsFor st.mount (applyWrites writes d) (newEntry name 0x10 c 0) (.dir c) :=
        ⟨hdir, hfirst⟩
      rw [← hkey] at hno ⊢
      refine Or.inl ⟨c, hno, fun hreach => hunreached (hF.reach_iff.mp hreach), rfl,
        hF.created hready' rfl rfl htake hcreated hunused hlive (fun _ => hbelow) hno (F.clear c)
          rfl rfl hclear (fun _ key _ => ?_) hstands⟩
      rw [hfirst, Store.clear_tree, if_pos rfl]
  · obtain ⟨taken, htaken⟩ := fatMkdir_returns_iff.mp h
    obtain ⟨a, halloc, ⟨fatBuf, rfl⟩, ⟨-, -, hr, rfl⟩ | ⟨c, hdone, -⟩⟩ :=
      fatMkdirTaken_outcome (hs.walks hready.cwd) htaken
    · exact Or.inr ⟨hr, hF.of_driver rfl rfl⟩
    · exact absurd (room_of_supplies hregular.1 halloc hdone) hroom

/-- A change of directory enters what its name stands for. -/
theorem Stands.cd {name : CString} (hdown : name.chars ≠ [0x2E, 0x2E])
    (h : (fatCd fuel st name).Returns d (r, st') writes) :
    (∃ id, F.here name.key = some (.dir id) ∧ r = 0 ∧
        Stands ⟨st', applyWrites writes d⟩ (F.enter id)) ∨
      ¬ F.HasDir name.key ∧ r = -1 ∧ Stands ⟨st', applyWrites writes d⟩ F := by
  have hready : Ready st d := hF.ready
  have hready' := hready.fatCd h
  have hwalk := hready.sound.walks hready.cwd
  obtain ⟨big, hmax, h⟩ := returns_of_more_fuel (fun _ _ hle => fatCd_extends hle st name) h
  by_cases hnamed : ∃ loc, Named st.mount d st.currentDirCluster (dirVerdict name) loc
  · obtain ⟨loc, hnamed⟩ := hnamed
    have hexec := fatCd_exec_some hwalk hdown hmax hnamed
    rw [Returns] at h
    rw [h] at hexec
    split_ifs at hexec
    · obtain ⟨hresult, rfl⟩ := Prod.mk.inj hexec
      obtain ⟨rfl, rfl⟩ := Prod.mk.inj (Except.ok.inj hresult)
      exact Or.inl ⟨_, hF.here_of_dir hnamed, rfl, hready', hF.unique, hF.root, rfl, hF.shows⟩
    · cases (Prod.mk.inj hexec).1
  · obtain ⟨hresult, rfl⟩ := h.unique (fatCd_returns_none hwalk hdown hmax (not_exists.mp hnamed))
    obtain ⟨rfl, rfl⟩ := Prod.mk.inj hresult
    exact Or.inr ⟨fun hdir => hnamed (hF.hasDir_iff.mp hdir), rfl, hF.of_driver rfl rfl⟩

/-- The way up leads to the root, from everywhere. -/
theorem Stands.top {name : CString} (hup : name.chars = [0x2E, 0x2E])
    (h : (fatCd fuel st name).Returns d (r, st') writes) :
    r = 0 ∧ Stands ⟨st', applyWrites writes d⟩ (F.enter F.root) := by
  have hready' := hF.ready.fatCd h
  have hmounted : st.mount.initialized = true := hF.ready.sound.valid.initialized
  obtain ⟨hresult, rfl⟩ := h.unique (fatCd_up hmounted hup fuel d)
  obtain ⟨rfl, rfl⟩ := Prod.mk.inj hresult
  exact ⟨rfl, hready', hF.unique, hF.root, hF.root, hF.shows⟩

/-- A name that stands for a file finds it, with its content. -/
theorem Stands.contains {name : CString} {content : List UInt8}
    (h : F.here name.key = some (.file content)) :
    Contains st.mount d st.currentDirCluster name content.length fun i => content.getD i 0 := by
  obtain ⟨loc, hnamed⟩ := hF.hasFile_iff.mp ⟨content, h⟩
  obtain ⟨content', hcontent', -, hsize, l, howns, hbytes⟩ := hF.here_of_file hnamed
  obtain rfl := Node.file.inj (Option.some.inj (h.symm.trans hcontent'))
  refine ⟨loc, l, hnamed, hsize, howns, fun i hi => (hbytes i hi).trans ?_⟩
  dsimp only
  rw [List.getD_eq_getElem?_getD, List.getElem?_eq_getElem hi, Option.getD_some]

/-- **A read delivers what its name stands for**, as far as the buffer goes. -/
theorem Stands.read {name : CString} {buf out : ℕ → UInt8} {bufSize : ℕ} {bytes : ℤ}
    (hbuf : bufSize < 2 ^ 31)
    (h : (fatRead fuel st name buf bufSize).Returns d ((bytes, out), st') writes) :
    (∃ fatBuf, st' = st.keepBuf .read fatBuf) ∧ writes = [] ∧
      Stands ⟨st', applyWrites writes d⟩ F ∧ ((∃ content, F.here name.key = some (.file content) ∧
          readReply bytes out = .content (content.take bufSize)) ∨
        ¬ F.HasFile name.key ∧ readReply bytes out = .failed) := by
  have hready : Ready st d := hF.ready
  by_cases hfile : F.HasFile name.key
  · obtain ⟨content, hcontent⟩ := hfile
    obtain ⟨rfl, hout, ⟨fatBuf, rfl⟩, rfl⟩ := (hF.contains hcontent).read hready hbuf h
    refine ⟨⟨fatBuf, rfl⟩, rfl, hF.of_driver rfl rfl, Or.inl ⟨content, hcontent, ?_⟩⟩
    rw [readReply, if_neg (by omega), Int.toNat_natCast]
    congr 1
    refine List.ext_getElem? fun i => ?_
    rw [List.getElem?_take]
    by_cases hi : i < min content.length bufSize
    · rw [getElem?_bytesOf out hi, hout i hi, if_pos (by omega)]
      dsimp only
      rw [List.getD_eq_getElem?_getD, List.getElem?_eq_getElem (by omega), Option.getD_some]
    · rw [List.getElem?_eq_none (by rw [length_bytesOf]; omega)]
      split_ifs
      · rw [List.getElem?_eq_none (by omega)]
      · rfl
  · obtain ⟨big, hmax, h⟩ :=
      returns_of_more_fuel (fun _ _ hle => fatRead_extends hle st name buf bufSize) h
    obtain ⟨hresult, rfl⟩ := h.unique (fatRead_not_found hready.sound.valid.usable
      (hready.sound.dirOk hready.cwd).finite hmax buf bufSize fun n loc htake =>
        hfile (hF.hasFile_iff.mpr ⟨loc, n, htake⟩))
    obtain ⟨hpair, rfl⟩ := Prod.mk.inj hresult
    obtain ⟨rfl, rfl⟩ := Prod.mk.inj hpair
    exact ⟨⟨_, rfl⟩, rfl, hF.of_driver rfl rfl, Or.inr ⟨hfile, rfl⟩⟩

end Calls

end MasterOS.Fat
