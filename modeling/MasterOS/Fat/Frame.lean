/-
# What a call leaves alone

A write, a delete, a rename or a new directory touches one entry at most: the first
file the name finds. Every other live entry keeps its record, its chain and, if it is
a file, the sectors of its chain. This needs no more of the volume than that its
chains are proper and disjoint.
-/

import MasterOS.Fat.Runs

namespace MasterOS.Fat

open MasterOS.Device MasterOS.Device.Prog MasterOS.Math

/-- From `d` to `d'` the entry at a location keeps its record, its clusters with their
table entries, and, if it is a file, the content of their sectors. -/
def Keeps (m : Mount) (d d' : Disk) (loc : Loc) : Prop :=
  entryAt d' loc = entryAt d loc ∧ ∀ l, Owns m d (entryAt d loc) l →
    Owns m d' (entryAt d' loc) l ∧ (∀ x ∈ l, fatAt m d' x = fatAt m d x) ∧
    ((entryAt d loc).isDir = false →
      ∀ x ∈ l, ∀ k < m.spc, d' (m.clusterLba x k) = d (m.clusterLba x k))

theorem Keeps.refl (m : Mount) (d : Disk) (loc : Loc) : Keeps m d d loc :=
  ⟨rfl, fun _ hl => ⟨hl, fun _ _ => rfl, fun _ _ _ _ _ => rfl⟩⟩

theorem Keeps.trans {m : Mount} {d d' d'' : Disk} {loc : Loc} (h : Keeps m d d' loc)
    (h' : Keeps m d' d'' loc) : Keeps m d d'' loc := by
  refine ⟨h'.1.trans h.1, fun l hl => ?_⟩
  obtain ⟨howns, htable, hdata⟩ := h.2 l hl
  obtain ⟨howns', htable', hdata'⟩ := h'.2 l howns
  refine ⟨howns', fun x hx => (htable' x hx).trans (htable x hx), fun hfile x hx k hk => ?_⟩
  exact (hdata' (h.1 ▸ hfile) x hx k hk).trans (hdata hfile x hx k hk)

/-- An edit of records of one directory keeps the sectors of a file whose clusters it does
not touch. -/
theorem Edit.sector_kept {m : Mount} {d d' : Disk} (hs : Sound m d) {S : Loc → Prop} {C : List ℕ}
    (hedit : Edit m d d' S C) {dirc : ℕ} (hreach : Reach m d dirc)
    (hS : ∀ loc, S loc → ∃ n, slotAt m (fatAt m d) dirc n = some loc) {loc : Loc}
    (hlive : Live m d loc) (hfile : (entryAt d loc).isDir = false) {l : List ℕ}
    (hl : Owns m d (entryAt d loc) l) (hdis : List.Disjoint l C) {x k : ℕ} (hx : x ∈ l)
    (hk : k < m.spc) : d' (m.clusterLba x k) = d (m.clusterLba x k) := by
  have hv := hs.valid
  have hok := hl.dataCluster hx
  have hlt := hok.lt
  have hlow := hv.dataStart_le_clusterLba hok.1 (by omega) hk
  have hdata := hv.dataStart_eq
  refine hedit.sector _ (by omega) (fun i hi => ?_) fun c hc k' hk' heq => ?_
  · -- the sectors written hold records of a directory, and this one holds a file's data
    obtain ⟨n', hloc'⟩ := hS _ hi
    refine dirLba_ne_clusterLba hv (hs.dirOk hreach) (slotAt_eq_some_iff.mp hloc').1
      (fun ld hld hxd => ?_) hok.1 (by omega) hk rfl
    exact hs.dir_disjoint hreach hld hlive hl
      (fun hdir => by rw [hfile] at hdir; exact absurd hdir (by decide)) hxd hx
  · obtain ⟨h2, hclt⟩ := hedit.clusters c hc
    obtain ⟨rfl, -⟩ := hv.clusterLba_inj hok.1 (by omega) hk h2 hclt hk' heq
    exact hdis hx hc

/-- An edit of records of one directory keeps a live entry it does not name, whose own
clusters and whose directory's clusters it does not touch. -/
theorem Edit.keeps_at {m : Mount} {d d' : Disk} (hs : Sound m d) {S : Loc → Prop} {C : List ℕ}
    (hedit : Edit m d d' S C) {dirc : ℕ} (hreach : Reach m d dirc)
    (hS : ∀ loc, S loc → ∃ n, slotAt m (fatAt m d) dirc n = some loc) {node n : ℕ}
    (hnode : Reach m d node) (hdir : ∀ ld, ChainOf m d node ld → List.Disjoint ld C)
    {loc : Loc} (hlive : LiveAt m d node n loc) (hnot : ¬ S loc)
    (hdis : ∀ l, Owns m d (entryAt d loc) l → List.Disjoint l C) : Keeps m d d' loc := by
  have hentry : entryAt d' loc = entryAt d loc :=
    hedit.entryAt_eq hs.valid (hs.dirOk hnode) hdir hlive.1 hnot
  refine ⟨hentry, fun l hl => ⟨hentry ▸ hedit.owns hl (hdis l hl), fun x hx => ?_,
    fun hfile x hx k hk => ?_⟩⟩
  · exact hedit.table x (hl.dataCluster hx).2.2 (hdis l hl hx)
  · exact hedit.sector_kept hs hreach hS (hlive.live hnode) hfile hl (hdis l hl) hx hk

/-- An edit of records of one directory keeps every live entry it does not name, whose
own clusters and whose directory's clusters it does not touch. -/
theorem Edit.keeps {m : Mount} {d d' : Disk} (hs : Sound m d) {S : Loc → Prop} {C : List ℕ}
    (hedit : Edit m d d' S C) {dirc : ℕ} (hreach : Reach m d dirc)
    (hS : ∀ loc, S loc → ∃ n, slotAt m (fatAt m d) dirc n = some loc)
    (hdirs : ∀ node ld, Reach m d node → ChainOf m d node ld → List.Disjoint ld C)
    {loc : Loc} (hlive : Live m d loc) (hnot : ¬ S loc)
    (hdis : ∀ l, Owns m d (entryAt d loc) l → List.Disjoint l C) : Keeps m d d' loc := by
  obtain ⟨node, n, hnode, hliveAt⟩ := hlive
  exact hedit.keeps_at hs hreach hS hnode (fun ld hld => hdirs node ld hnode hld) hliveAt hnot hdis

section Ops

variable {st st' : Driver} {d : Disk} (hs : Sound st.mount d)
  (hcwd : Reach st.mount d st.currentDirCluster) {fuel : ℕ} {r : ℤ} {writes : List (ℕ × Sector)}
include hs hcwd

/-- A delete keeps every live entry but the file it finds, and leaves it live. -/
theorem fatDelete_keeps {name : CString}
    (h : (fatDelete fuel st name).Returns d (r, st') writes) {loc : Loc}
    (hlive : Live st.mount d loc)
    (hother : ¬ Named st.mount d st.currentDirCluster (fileVerdict name) loc) :
    Keeps st.mount d (applyWrites writes d) loc ∧ Live st.mount (applyWrites writes d) loc := by
  obtain ⟨-, ⟨-, -, rfl⟩ | ⟨loc₀, n, l₀, hnamed, hlive₀, howns₀, -, rfl⟩⟩ :=
    removeEntry_outcome hs hcwd (fun loc hnamed => hnamed.file.1) h
  · exact ⟨.refl _ _ _, hlive⟩
  · have hremoved := removed_of_removeWrites (hs.walks hcwd) hlive₀.1 howns₀ (st.fatBuf .delete)
    have hne : loc ≠ loc₀ := fun heq => hother (heq ▸ hnamed)
    have hfile := hnamed.file.2.1
    constructor
    · refine hremoved.edit.keeps hs hcwd (fun x hx => ⟨n, hx ▸ hlive₀.1⟩)
        (fun node ld hnode hld => ?_) hlive hne fun l hl => ?_
      · exact hs.dir_disjoint hnode hld (hlive₀.live hcwd) howns₀
          fun hdir => by rw [hfile] at hdir; exact absurd hdir (by decide)
      · exact hs.disjoint loc loc₀ l l₀ hlive (hlive₀.live hcwd) hne hl howns₀
    · refine live_after_removal hs hcwd hlive₀ howns₀ hremoved.edit (List.Subset.refl _)
        hremoved.live_eq_false.2 (fun hdir => ?_) hlive hne
      rw [hfile] at hdir
      exact absurd hdir (by decide)

/-- A rename keeps every live entry but the file it finds. -/
theorem fatRename_keeps {oldName newName : CString}
    (h : (fatRename fuel st oldName newName).Returns d (r, st') writes) {loc : Loc}
    (hlive : Live st.mount d loc)
    (hother : ¬ Named st.mount d st.currentDirCluster (fileVerdict oldName) loc) :
    Keeps st.mount d (applyWrites writes d) loc := by
  obtain ⟨-, ⟨-, -, rfl⟩ | ⟨loc₀, hnamed, -, rfl⟩⟩ := fatRename_outcome (hs.walks hcwd) h
  · exact .refl _ _ _
  · obtain ⟨⟨n, hlive₀⟩, -⟩ := hnamed.file
    refine (slotWrite_effect (hs.walks hcwd) hlive₀.1 _).1.keeps hs hcwd (fun x hx => ⟨n, hx ▸ hlive₀.1⟩)
      (fun _ _ _ _ => List.disjoint_nil_right _) hlive (fun heq => hother (heq ▸ hnamed))
      fun _ _ => List.disjoint_nil_right _

omit hs hcwd in
/-- An edit of the first free slot and of clusters that were free keeps every live
entry. -/
theorem keeps_of_creation {m : Mount} (hs : Sound m d) {dirc : ℕ} (hreach : Reach m d dirc)
    {d' : Disk} {S : Loc → Prop} {C : List ℕ} (hedit : Edit m d d' S C) (hunused : Unused m d C)
    (hS : ∀ loc, S loc → Named m d dirc freeVerdict loc) {loc : Loc} (hlive : Live m d loc) :
    Keeps m d d' loc := by
  refine hedit.keeps hs hreach (fun x hx => ?_) (fun _ _ _ hld => hunused.disjoint_chain hld)
    hlive (fun hSloc => ?_) fun _ hl => hunused.disjoint_owns hl
  · obtain ⟨n, htake⟩ := hS x hx
    exact ⟨n, htake.1⟩
  · obtain ⟨n, htake⟩ := hS loc hSloc
    obtain ⟨_, _, _, hliveAt⟩ := hlive
    have hfree := live_eq_false_of_free htake.2.1
    rw [show (entryAt d loc).live = true from hliveAt.2.1] at hfree
    exact absurd hfree (by decide)

/-- The store behind the delete keeps every live entry. -/
theorem storeFile_keeps {name : CString} {data : ℕ → UInt8} {size : ℕ} (hsize : size < 2 ^ 32)
    (hroom : clustersFor st.mount size ≤ (freeClusters st.mount (fatAt st.mount d)).card)
    {taken : List ℕ}
    (h : (storeFile fuel st name data size).Returns d ((r, taken), st') writes) {loc : Loc}
    (hlive : Live st.mount d loc) : Keeps st.mount d (applyWrites writes d) loc := by
  obtain ⟨l, fatBuf', halloc, -, -, -, hcases⟩ := storeFile_outcome_of_room hs hcwd hsize hroom h
  have hunused := unused_of_tableAlloc halloc
  have hwalk := hs.walks hcwd
  rcases hcases with ⟨-, -, rfl⟩ | ⟨loc₀, hnamed, -, rfl⟩
  · exact keeps_of_creation hs hcwd (edit_of_storeWrites hwalk halloc data size fun _ => False)
      hunused (fun _ h => h.elim) hlive
  · obtain ⟨k, htake⟩ := id hnamed
    have hcreated := created_of_storeWrites hwalk halloc htake.1 data size
      (newEntry name 0x00 (l.headD 0) size)
    exact keeps_of_creation hs hcwd hcreated.edit hunused (fun x hx => hx ▸ hnamed) hlive

/-- A new directory keeps every live entry. -/
theorem fatMkdir_keeps {name : CString}
    (hroom : 1 ≤ (freeClusters st.mount (fatAt st.mount d)).card)
    (h : (fatMkdir fuel st name).Returns d (r, st') writes) {loc : Loc}
    (hlive : Live st.mount d loc) : Keeps st.mount d (applyWrites writes d) loc := by
  obtain ⟨taken, h⟩ := fatMkdir_returns_iff.mp h
  obtain ⟨c, fatBuf', halloc, -, -, -, hcases⟩ := fatMkdirTaken_outcome_of_room hs hcwd hroom h
  have hunused := unused_of_tableAlloc halloc
  have hwalk := hs.walks hcwd
  rcases hcases with ⟨-, -, rfl⟩ | ⟨loc₀, hnamed, -, rfl⟩
  · exact keeps_of_creation hs hcwd
      (edit_of_mkdirWrites hwalk halloc rfl st.currentDirCluster fun _ => False)
      hunused (fun _ h => h.elim) hlive
  · obtain ⟨k, htake⟩ := id hnamed
    have hcreated := created_of_mkdirWrites hwalk halloc rfl htake.1 st.currentDirCluster
      (newEntry name 0x10 c 0)
    exact keeps_of_creation hs hcwd hcreated.edit hunused (fun x hx => hx ▸ hnamed) hlive

/-- A write keeps every live entry but the file it replaces. -/
theorem fatWrite_keeps {name : CString} {data : ℕ → UInt8} {size : ℕ} (hsize : size < 2 ^ 32)
    (hfits : Fits st.mount d st.currentDirCluster name (clustersFor st.mount size))
    (h : (fatWrite fuel st name data size).Returns d (r, st') writes) {loc : Loc}
    (hlive : Live st.mount d loc)
    (hother : ¬ Named st.mount d st.currentDirCluster (fileVerdict name) loc) :
    Keeps st.mount d (applyWrites writes d) loc := by
  obtain ⟨code, fatBuf, taken, first, second, hdelete, hstore, rfl, hs₁, hcwd₁⟩ :=
    fatWrite_split hs hcwd h
  obtain ⟨hkeeps, hlive₁⟩ := fatDelete_keeps hs hcwd hdelete hlive hother
  have hroom := hfits.after_delete hs hcwd hdelete
  rw [applyWrites_append]
  exact hkeeps.trans (storeFile_keeps hs₁ hcwd₁ hsize hroom hstore hlive₁)

end Ops

/-! ## The calls return -/

section Total

variable {st : Driver} {d : Disk} (hs : Sound st.mount d)
  (hcwd : Reach st.mount d st.currentDirCluster) {fuel : ℕ} (hfuel : loopBound < fuel)
include hs hcwd hfuel

theorem fatDelete_total (name : CString) :
    ∃ r st' writes, (fatDelete fuel st name).Returns d (r, st') writes := by
  by_cases hnamed : ∃ loc, Named st.mount d st.currentDirCluster (fileVerdict name) loc
  · obtain ⟨loc, hnamed⟩ := hnamed
    obtain ⟨n, hlive⟩ := hnamed.file.1
    obtain ⟨l, howns⟩ := hs.owns loc (hlive.live hcwd)
    exact ⟨_, _, _, removeEntry_returns_some (hs.walks hcwd) hfuel hnamed howns
      fun ld hld => hs.dir_disjoint_entry hcwd hld hlive howns⟩
  · exact ⟨_, _, _, removeEntry_returns_none (hs.walks hcwd) hfuel (not_exists.mp hnamed)⟩

theorem fatRename_total (oldName newName : CString) :
    ∃ r st' writes, (fatRename fuel st oldName newName).Returns d (r, st') writes := by
  by_cases hnamed : ∃ loc, Named st.mount d st.currentDirCluster (fileVerdict oldName) loc
  · obtain ⟨loc, hnamed⟩ := hnamed
    exact ⟨_, _, _, fatRename_returns_some (hs.walks hcwd) newName hfuel hnamed⟩
  · exact ⟨_, _, _, fatRename_returns_none (hs.walks hcwd) newName hfuel (not_exists.mp hnamed)⟩

theorem storeFile_total (name : CString) (data : ℕ → UInt8) {size : ℕ} (hsize : size < 2 ^ 32)
    (hroom : clustersFor st.mount size ≤ (freeClusters st.mount (fatAt st.mount d)).card) :
    ∃ r st' writes, (storeFile fuel st name data size).Returns d (r, st') writes := by
  obtain ⟨l, fatBuf', halloc, -⟩ := tableAlloc_of_room hroom (st.fatBuf .write)
  by_cases hnamed : ∃ loc, Named st.mount d st.currentDirCluster freeVerdict loc
  · obtain ⟨loc, hnamed⟩ := hnamed
    exact ⟨_, _, _, storeFile_returns_some (hs.walks hcwd) name data hsize hfuel halloc rfl hnamed⟩
  · exact ⟨_, _, _, storeFile_returns_noSlot (hs.walks hcwd) name data hsize hfuel halloc rfl
      (not_exists.mp hnamed)⟩

theorem fatWrite_total (name : CString) (data : ℕ → UInt8) {size : ℕ} (hsize : size < 2 ^ 32)
    (hfits : Fits st.mount d st.currentDirCluster name (clustersFor st.mount size)) :
    ∃ r st' writes, (fatWrite fuel st name data size).Returns d (r, st') writes := by
  obtain ⟨code, st₁, first, hdelete⟩ := fatDelete_total hs hcwd hfuel name
  have hroom := hfits.after_delete hs hcwd hdelete
  obtain ⟨hs₁, hcwd₁⟩ := fatDelete_sound hs hcwd hdelete
  obtain ⟨⟨fatBuf, rfl⟩, -⟩ :=
    removeEntry_outcome hs hcwd (fun loc hnamed => hnamed.file.1) hdelete
  obtain ⟨⟨r, taken⟩, st', second, hstore⟩ :=
    @storeFile_total (st.keepBuf .delete fatBuf) _ hs₁ hcwd₁ fuel hfuel name data _ hsize hroom
  exact ⟨r, st', _, (fatWrite_returns_iff name data).mpr ⟨taken,
    (fatWriteTaken_returns_iff name data hs.valid).mpr
      ⟨_, first, second, hdelete, hstore, rfl⟩⟩⟩

theorem fatMkdir_total (name : CString)
    (hroom : 1 ≤ (freeClusters st.mount (fatAt st.mount d)).card) :
    ∃ r st' writes, (fatMkdir fuel st name).Returns d (r, st') writes := by
  obtain ⟨l, fatBuf', halloc, -⟩ := tableAlloc_of_room hroom (st.fatBuf .mkdir)
  by_cases hnamed : ∃ loc, Named st.mount d st.currentDirCluster freeVerdict loc
  · obtain ⟨loc, hnamed⟩ := hnamed
    obtain ⟨c, -, hreturns⟩ := fatMkdirTaken_returns_some (hs.walks hcwd) name hfuel halloc rfl hnamed
    exact ⟨_, _, _, fatMkdir_returns_iff.mpr ⟨[c], hreturns⟩⟩
  · obtain ⟨c, -, hreturns⟩ :=
      fatMkdirTaken_returns_noSlot (hs.walks hcwd) name hfuel halloc rfl (not_exists.mp hnamed)
    exact ⟨_, _, _, fatMkdir_returns_iff.mpr ⟨[c], hreturns⟩⟩

end Total

/-! ## Every call on one entry -/

/-- The calls that write, delete, rename or make one entry. -/
def Op.OnEntry : Op → Prop
  | .write _ _ _ | .delete _ | .rename _ _ | .mkdir _ => True
  | .rmdir _ | .cd _ => False

/-- The entry a call names: the first file under the name that is written, deleted or
renamed. -/
def Op.Names (s : System) : Op → Loc → Prop
  | .write name _ _ | .delete name | .rename name _ =>
      Named s.driver.mount s.disk s.driver.currentDirCluster (fileVerdict name)
  | _ => fun _ => False

/-- **Files do not interfere.** A call on one entry that finds the room it needs returns,
and keeps every live entry but the one it names. -/
theorem call_keeps_others {s : System} (hs : Sound s.driver.mount s.disk)
    (hcwd : Reach s.driver.mount s.disk s.driver.currentDirCluster) {op : Op} (hop : op.OnEntry)
    (hroom : op.HasRoom s) {fuel : ℕ} (hfuel : loopBound < fuel) :
    ∃ r st' writes, (op.run fuel s.driver).Returns s.disk (r, st') writes ∧
      ∀ loc, Live s.driver.mount s.disk loc → ¬ op.Names s loc →
        Keeps s.driver.mount s.disk (applyWrites writes s.disk) loc := by
  cases op with
  | write name data size =>
      obtain ⟨r, st', writes, h⟩ := fatWrite_total hs hcwd hfuel name data hroom.1 hroom.2
      exact ⟨r, st', writes, h, fun loc hlive hother =>
        fatWrite_keeps hs hcwd hroom.1 hroom.2 h hlive hother⟩
  | delete name =>
      obtain ⟨r, st', writes, h⟩ := fatDelete_total hs hcwd hfuel name
      exact ⟨r, st', writes, h, fun loc hlive hother =>
        (fatDelete_keeps hs hcwd h hlive hother).1⟩
  | rename oldName newName =>
      obtain ⟨r, st', writes, h⟩ := fatRename_total hs hcwd hfuel oldName newName
      exact ⟨r, st', writes, h, fun loc hlive hother => fatRename_keeps hs hcwd h hlive hother⟩
  | mkdir name =>
      obtain ⟨r, st', writes, h⟩ := fatMkdir_total hs hcwd hfuel name hroom
      exact ⟨r, st', writes, h, fun loc hlive _ => fatMkdir_keeps hs hcwd hroom h hlive⟩
  | rmdir name => exact hop.elim
  | cd name => exact hop.elim

/-- A second file is written next to a first one, whose byte stays. -/
theorem call_keeps_others_fileDisk :
    ∃ r st' writes, ((Op.write nameB (fun _ => 9) 1).run (loopBound + 1)
        (freshDriver smallMount)).Returns fileDisk (r, st') writes ∧
      Keeps smallMount fileDisk (applyWrites writes fileDisk) (2, 0) := by
  obtain ⟨r, st', writes, hreturns, hkeeps⟩ :=
    @call_keeps_others ⟨freshDriver smallMount, fileDisk⟩ ready_fileDisk.sound ready_fileDisk.cwd
      (.write nameB (fun _ => 9) 1) trivial ⟨by decide, fits_nameB⟩ _ (Nat.lt_succ_self _)
  exact ⟨r, st', writes, hreturns, hkeeps (2, 0) live_fileDisk (not_named_fileDisk (2, 0))⟩

end MasterOS.Fat
