/-
# Names in a directory

A write looks for a file of its name and replaces it, a rename and a new directory look
for nothing, and what all three store is the name cut down to its 8.3 form. So a name
stays the only one of its kind as long as nothing else in the directory shows the name
that is stored, and each of the three can make a second one when something does.
-/

import MasterOS.Fat.Regular

namespace MasterOS.Fat

open MasterOS.Device MasterOS.Device.Prog MasterOS.Math

/-- The name a record shows. -/
def RawDirEntry.shown (e : RawDirEntry) : List UInt8 := makeName e.name e.ext

/-- The name a record shows when it is stored under `name`. -/
def storedName (name : CString) : List UInt8 := makeName (split83 name).1 (split83 name).2

/-- Two names are equal, ignoring case. -/
def SameName (a b : List UInt8) : Prop := kStrcmpNocase a b = 0

theorem SameName.symm {a b : List UInt8} (h : SameName a b) : SameName b a :=
  (kStrcmpNocase_eq_zero_iff b a).mpr ((kStrcmpNocase_eq_zero_iff a b).mp h).symm

/-- No directory has two live entries that show the same name. -/
def UniqueNames (m : Mount) (d : Disk) : Prop :=
  ∀ dirc n n' loc loc', Reach m d dirc → LiveAt m d dirc n loc → LiveAt m d dirc n' loc' →
    SameName (entryAt d loc).shown (entryAt d loc').shown → loc = loc'

/-- Nothing live in a directory shows the name, apart from the locations excepted. -/
def Unshown (m : Mount) (d : Disk) (dirc : ℕ) (except : Loc → Prop) (name : List UInt8) : Prop :=
  ∀ n loc, LiveAt m d dirc n loc → ¬ except loc → ¬ SameName (entryAt d loc).shown name

/-- **A change keeps names unique** when the record it puts in shows a name that nothing
else in the directory shows. -/
theorem UniqueNames.change {m : Mount} {d d' : Disk} (hunique : UniqueNames m d)
    (hw : WellFormed m d) {dirc : ℕ} (hreach : Reach m d dirc)
    {put : Option (Loc × RawDirEntry)} (h : Change m dirc d d' put)
    (hput : ∀ loc e, put = some (loc, e) → Unshown m d dirc (fun x => x = loc) e.shown) :
    UniqueNames m d' := by
  intro node n n' loc loc' hnode hlive hlive' hsame
  -- a record that was put in against one that was there before
  have hnew {k : ℕ} {x y : Loc} (hx : put = some (x, entryAt d' x)) (hy : LiveAt m d dirc k y)
      (hyd : entryAt d' y = entryAt d y)
      (hxy : SameName (entryAt d' y).shown (entryAt d' x).shown) : y = x := by
    by_contra hne
    rw [hyd] at hxy
    exact hput x _ hx k y hy hne hxy
  rcases h.liveAt hw hreach hnode hlive with ⟨hdirc, hloc⟩ | ⟨hnode₁, hlive₁, heq₁⟩ <;>
    rcases h.liveAt hw hreach hnode hlive' with ⟨hdirc', hloc'⟩ | ⟨hnode₂, hlive₂, heq₂⟩
  · exact (Prod.mk.inj (Option.some.inj (hloc.symm.trans hloc'))).1
  · exact (hnew hloc (hdirc ▸ hlive₂) heq₂ hsame.symm).symm
  · exact hnew hloc' (hdirc' ▸ hlive₁) heq₁ hsame
  · rw [heq₁, heq₂] at hsame
    exact hunique node n n' loc loc' hnode₁ hlive₁ hlive₂ hsame

/-- The name a call stores is shown by nothing else in the current directory, or the call
stores none: a write or a new directory with no slot or too few clusters, a rename that
finds no file. A write does not count the file it replaces, nor a rename the file
itself. -/
def Op.NewName (s : System) : Op → Prop
  | .write name _ size =>
      Fits s.driver.mount s.disk s.driver.currentDirCluster name
        (clustersFor s.driver.mount size) →
      ((∃ loc, Named s.driver.mount s.disk s.driver.currentDirCluster freeVerdict loc) ∨
        ∃ loc, Named s.driver.mount s.disk s.driver.currentDirCluster (fileVerdict name) loc) →
      Unshown s.driver.mount s.disk s.driver.currentDirCluster
        (Named s.driver.mount s.disk s.driver.currentDirCluster (fileVerdict name))
        (storedName name)
  | .rename oldName newName =>
      ∀ loc, Named s.driver.mount s.disk s.driver.currentDirCluster (fileVerdict oldName) loc →
        Unshown s.driver.mount s.disk s.driver.currentDirCluster (fun x => x = loc)
          (storedName newName)
  | .mkdir name => nextFree s.driver s.disk .mkdir ≠ 0 →
      (∃ loc, Named s.driver.mount s.disk s.driver.currentDirCluster freeVerdict loc) →
      Unshown s.driver.mount s.disk s.driver.currentDirCluster (fun _ => False) (storedName name)
  | _ => True

/-- A regular call that stores a new name keeps names unique. -/
theorem UniqueNames.step {s s' : System} (hready : Ready s.driver s.disk)
    (hunique : UniqueNames s.driver.mount s.disk)
    (hstep : Step (fun s op => op.Regular s ∧ op.NewName s) s s') :
    UniqueNames s'.driver.mount s'.disk := by
  have hw := hready.wellFormed
  have hcwd := hready.cwd
  obtain ⟨op, ⟨hregular, hnew⟩, hreturns⟩ := hstep
  cases op with
  | write name data size =>
      obtain ⟨-, hmount, -, -, d₁, put, hready₁, hdelete, hstore, hgone, hput⟩ :=
        fatWrite_changes hready hregular hreturns
      have hunique₁ := hunique.change hw hcwd hdelete nofun
      rw [hmount]
      refine hunique₁.change hready₁.wellFormed hready₁.cwd hstore fun loc e heq => ?_
      obtain ⟨hfits, hslot, c, rfl⟩ := hput loc e heq
      intro n loc' hlive _
      rcases hdelete.liveAt hw hcwd hready₁.cwd hlive with ⟨-, hnone⟩ | ⟨-, hlive₀, hsame⟩
      · exact nomatch hnone
      · rw [hsame]
        exact hnew hfits hslot n loc' hlive₀ (hgone loc' hlive.2.1)
  | delete name =>
      obtain ⟨⟨fatBuf, rfl⟩, hchange⟩ := fatDelete_change hready hreturns
      exact hunique.change hw hcwd hchange nofun
  | rename oldName newName =>
      obtain ⟨⟨fatBuf, rfl⟩, put, hchange, hput⟩ := fatRename_change hready hreturns
      refine hunique.change hw hcwd hchange fun loc e heq => ?_
      obtain ⟨hnamed, rfl⟩ := hput loc e heq
      exact hnew loc hnamed
  | mkdir name =>
      obtain ⟨-, ⟨fatBuf, rfl⟩, put, hchange, hput⟩ :=
        fatMkdir_change hready hregular.1 hregular.2 hreturns
      refine hunique.change hw hcwd hchange fun loc e heq n loc' hlive _ => ?_
      obtain ⟨hsome, hslot, c, rfl⟩ := hput loc e heq
      exact hnew hsome ⟨loc, hslot⟩ n loc' hlive id
  | rmdir name =>
      obtain ⟨⟨fatBuf, rfl⟩, hchange⟩ := fatRmdir_change hready hreturns
      exact hunique.change hw hcwd hchange nofun
  | cd name =>
      obtain ⟨rfl, hmount, -⟩ := fatCd_outcome (hready.sound.walks hcwd) hreturns
      rw [hmount]
      exact hunique

/-- **Names stay unique over whole runs** whose calls store new names. -/
theorem run_uniqueNames {s s' : System} (hready : Ready s.driver s.disk)
    (hunique : UniqueNames s.driver.mount s.disk)
    (hrun : Run (fun s op => op.Regular s ∧ op.NewName s) s s') :
    UniqueNames s'.driver.mount s'.disk := by
  suffices Ready s'.driver s'.disk ∧ UniqueNames s'.driver.mount s'.disk from this.2
  induction hrun with
  | refl => exact ⟨hready, hunique⟩
  | tail _ hstep ih =>
      obtain ⟨op, hallowed, hreturns⟩ := id hstep
      exact ⟨ih.1.step_regular (.call op hallowed.1 hreturns), ih.2.step ih.1 hstep⟩

theorem uniqueNames_blankSystem :
    UniqueNames blankSystem.driver.mount blankSystem.disk :=
  fun dirc n _ loc _ _ hlive _ _ => absurd hlive (not_liveAt_blank _ dirc n loc)

theorem newName_write_oneFile : (Op.write nameB (fun _ => 9) 1).NewName oneFile := by
  obtain ⟨hdisk, hmount, hcwd⟩ := oneFile_eq
  rw [Op.NewName, hdisk, hmount, hcwd]
  intro _ _ n loc hlive _
  obtain ⟨-, rfl⟩ := liveAt_fileDisk_iff.mp hlive
  show kStrcmpNocase _ _ ≠ 0
  decide +kernel

/-- Neither file of a volume with two has the name of a third. -/
theorem newName_rename_twoFiles (name : CString) : (Op.rename name nameC).NewName twoFiles := by
  have hentries : (entryAt twoFiles.disk (2, 2)).isEnd = true ∧
      kStrcmpNocase (entryAt twoFiles.disk (2, 0)).shown (storedName nameC) ≠ 0 ∧
      kStrcmpNocase (entryAt twoFiles.disk (2, 1)).shown (storedName nameC) ≠ 0 := by
    decide +kernel
  have hroot : twoFiles.driver.currentDirCluster = 0 := rfl
  rw [Op.NewName, hroot]
  intro _ _ n loc hlive _
  have hlt : n < 2 := hlive.lt_of_isEnd (show _ = some (2, 2) from rfl) hentries.1
  interval_cases n
  · obtain rfl : (2, 0) = loc := Option.some.inj hlive.1
    exact hentries.2.1
  · obtain rfl : (2, 1) = loc := Option.some.inj hlive.1
    exact hentries.2.2

/-- Two files are written beside each other, and the first is renamed. The volume then shows two
names, and each of them once. -/
theorem run_uniqueNames_blank :
    Run (fun s op => op.Regular s ∧ op.NewName s) blankSystem renamedFile ∧
      (entryAt renamedFile.disk (2, 0)).shown = nameC.chars ∧
      (entryAt renamedFile.disk (2, 1)).shown = nameB.chars ∧
      UniqueNames renamedFile.driver.mount renamedFile.disk := by
  have hfirst : (Op.write nameA (fun _ => 7) 1).NewName blankSystem :=
    fun _ _ n loc hlive => absurd hlive (not_liveAt_blank _ _ n loc)
  have hrun : Run (fun s op => op.Regular s ∧ op.NewName s) blankSystem renamedFile :=
    (blankSystem.run_next 4 _ ⟨regular_write_blank, hfirst⟩).trans
      ((oneFile.run_next 4 _ ⟨regular_write_oneFile, newName_write_oneFile⟩).trans
        (twoFiles.run_next 4 _ ⟨trivial, newName_rename_twoFiles nameA⟩))
  exact ⟨hrun, by decide +kernel, by decide +kernel,
    run_uniqueNames ready_blankSystem uniqueNames_blankSystem hrun⟩

/-- Two files are written, and the first is renamed to the name of the second. -/
def twice : System := blankSystem.after 4
  [.write nameA (fun _ => 7) 1, .write nameB (fun _ => 7) 1, .rename nameA nameB]

/-- **A rename makes a second `B`.** -/
theorem not_uniqueNames_twice :
    Ready blankSystem.driver blankSystem.disk ∧
    UniqueNames blankSystem.driver.mount blankSystem.disk ∧
    Run (fun _ _ => True) blankSystem twice ∧
    ¬ UniqueNames twice.driver.mount twice.disk := by
  refine ⟨ready_blankSystem, uniqueNames_blankSystem, run_after _ _ _, fun hunique => ?_⟩
  have hentries : ((entryAt twice.disk (2, 0)).live = true ∧
      (entryAt twice.disk (2, 0)).isEnd = false) ∧ (entryAt twice.disk (2, 1)).live = true ∧
      kStrcmpNocase (entryAt twice.disk (2, 0)).shown (entryAt twice.disk (2, 1)).shown = 0 := by
    decide +kernel
  have hfirst : LiveAt smallMount twice.disk 0 0 (2, 0) :=
    ⟨rfl, hentries.1.1, fun k hk => absurd hk (Nat.not_lt_zero k)⟩
  have hsecond : LiveAt smallMount twice.disk 0 1 (2, 1) := by
    refine ⟨rfl, hentries.2.1, fun k hk loc hloc => ?_⟩
    obtain rfl : k = 0 := Nat.lt_one_iff.mp hk
    obtain rfl : (2, 0) = loc := Option.some.inj hloc
    exact Bool.eq_false_iff.mp hentries.1.2
  have heq := hunique 0 0 1 (2, 0) (2, 1) .root hfirst hsecond hentries.2.2
  exact absurd heq (by decide)

end MasterOS.Fat
