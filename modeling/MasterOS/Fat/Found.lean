/-
# Found under its name

A name is stored cut down to eight bytes and three, and looked up whole. What is written,
made or renamed is found again under the name exactly when nothing of it was cut off.
-/

import MasterOS.Fat.Regular
import MasterOS.Fat.RoundTrip
import MasterOS.Fat.Listing

namespace MasterOS.Fat

open MasterOS.Device MasterOS.Device.Prog MasterOS.Math

/-- A name as the shell passes it: ASCII without a space, and no dot in front. -/
structure ShellName (name : CString) : Prop where
  ascii : ∀ b ∈ name.chars, b < 0x80
  noSpace : ∀ b ∈ name.chars, b ≠ 0x20
  noDot : name.chars.head? ≠ some 0x2E

theorem ShellName.storable {name : CString} (h : ShellName name) : Storable name := by
  refine ⟨h.noSpace, fun hhead => ?_⟩
  exact absurd (h.ascii _ (List.mem_of_mem_head? hhead)) (by decide)

theorem ShellName.down {name : CString} (h : ShellName name) : name.chars ≠ [0x2E, 0x2E] := by
  intro hup
  exact h.noDot (by rw [hup]; rfl)

/-! ## Finding -/

/-- The search of `fat_read` ends at the record in a slot. -/
def Finds (st : Driver) (d : Disk) (name : CString) (loc : Loc) : Prop :=
  ∃ n, slotAt st.mount (fatAt st.mount d) st.currentDirCluster n = some loc ∧
    ∀ fuel, loopBound < fuel → ∃ st',
      (readSearch fuel st name).Returns d (some ⟨n / 16, d loc.1, n % 16⟩, st') []

/-- It ends at the record that the name finds. -/
theorem finds_iff {st : Driver} {d : Disk} (hwalk : Walks st.mount d st.currentDirCluster)
    {name : CString} {loc : Loc} : Finds st d name loc ↔
      Named st.mount d st.currentDirCluster (fileVerdict name) loc := by
  have hsearch (fuel : ℕ) (hfuel : loopBound < fuel) : ∃ result,
      SearchResult (slotAt st.mount (fatAt st.mount d) st.currentDirCluster) d (fileVerdict name)
        result ∧ ∃ st', (readSearch fuel st name).Returns d (result, st') [] := by
    obtain ⟨result, hfind, hresult⟩ := findSlot_dirKept hwalk.valid
      (hwalk.dirKept_loaded (st.fatBuf .read)) (fun _ _ _ => rfl) (fileVerdict name) hfuel
    refine ⟨result, hresult, st.keepBuf .read (loaded st.mount d (st.fatBuf .read)), ?_⟩
    rw [Returns, readSearch, withFat_exec hwalk.valid]
    exact hfind.bind_nil rfl
  constructor
  · rintro ⟨n, hloc, hreturns⟩
    obtain ⟨st', hreturns⟩ := hreturns (loopBound + 1) (Nat.lt_succ_self _)
    obtain ⟨result, hresult, st'', hreturns'⟩ := hsearch (loopBound + 1) (Nat.lt_succ_self _)
    obtain ⟨hhit, -⟩ := hreturns.unique hreturns'
    obtain rfl := (Prod.mk.inj hhit).1
    obtain ⟨n', loc', htake, hsame⟩ := hresult
    obtain ⟨hsector, -, hslot⟩ := Hit.mk.inj hsame
    obtain rfl : n = n' := by
      rw [← Nat.div_add_mod n 16, hsector, hslot, Nat.div_add_mod]
    obtain rfl : loc = loc' := Option.some.inj (hloc.symm.trans htake.1)
    exact ⟨n, htake⟩
  · rintro ⟨n, htake⟩
    refine ⟨n, htake.1, fun fuel hfuel => ?_⟩
    obtain ⟨result, hresult, st', hreturns⟩ := hsearch fuel hfuel
    cases result with
    | none => exact absurd htake (hresult n loc)
    | some hit =>
        obtain ⟨n', loc', htake', rfl⟩ := hresult
        obtain ⟨rfl, rfl⟩ := htake.unique htake'
        exact ⟨st', hreturns⟩

/-! ## Names not in use -/

/-- Nothing live in a directory goes by the name. -/
def NameFree (m : Mount) (d : Disk) (dirc : ℕ) (name : CString) : Prop :=
  ∀ n loc, LiveAt m d dirc n loc → (entryAt d loc).matches name = false

/-- A search for a name not in use passes every record before the end. -/
theorem NameFree.skips {m : Mount} {d : Disk} {dirc : ℕ} {name : CString}
    (h : NameFree m d dirc name) {n : ℕ} {loc : Loc}
    (hloc : slotAt m (fatAt m d) dirc n = some loc)
    (hflags : ¬ ((entryAt d loc).isLabel = true ∧ (entryAt d loc).isDir = true))
    (hbefore : ∀ k ≤ n, ∀ x, slotAt m (fatAt m d) dirc k = some x → (entryAt d x).isEnd = false) :
    fileVerdict name (entryAt d loc) = .skip ∧ dirVerdict name (entryAt d loc) = .skip := by
  have hend : ¬ (entryAt d loc).isEnd = true := by
    rw [hbefore n le_rfl loc hloc]
    decide
  have hlive : (entryAt d loc).live = true → (entryAt d loc).matches name = false := by
    intro hlive
    refine h n loc ⟨hloc, hlive, fun k hk x hx => ?_⟩
    exact Bool.eq_false_iff.mp (hbefore k hk.le x hx)
  constructor
  · cases hverdict : fileVerdict name (entryAt d loc) with
    | skip => rfl
    | stop => exact absurd ((fileVerdict_eq_stop_iff _ _).mp hverdict) hend
    | take =>
        obtain ⟨hlive', -, hmatches⟩ := fileVerdict_eq_take_iff.mp hverdict
        rw [hlive hlive'] at hmatches
        exact absurd hmatches (by decide)
  · cases hverdict : dirVerdict name (entryAt d loc) with
    | skip => rfl
    | stop => exact absurd ((dirVerdict_eq_stop_iff _ _).mp hverdict) hend
    | take =>
        obtain ⟨hlive', -, hmatches⟩ := (dirVerdict_eq_take_iff hflags).mp hverdict
        rw [hlive hlive'] at hmatches
        exact absurd hmatches (by decide)

/-! ## A file written -/

/-- The slot that a write fills was free before, or held the file of that name. -/
theorem free_of_deleted {st st' : Driver} {d : Disk} (hready : Ready st d) {name : CString}
    {fuel : ℕ} {r : ℤ} {writes : List (ℕ × Sector)}
    (h : (fatDelete fuel st name).Returns d (r, st') writes) {loc : Loc}
    (hnamed : Named st.mount (applyWrites writes d) st.currentDirCluster freeVerdict loc) :
    (entryAt d loc).live = false ∨ Named st.mount d st.currentDirCluster (fileVerdict name) loc := by
  obtain ⟨k, hloc, htake, -⟩ := hnamed
  have hs := hready.sound
  have hdead := live_eq_false_of_free htake
  obtain ⟨-, ⟨-, -, rfl⟩ | ⟨loc₀, n, l, hfile, hlive, howns, -, rfl⟩⟩ :=
    removeEntry_outcome hs hready.cwd (fun _ hnamed => hnamed.file.1) h
  · exact Or.inl hdead
  · by_cases hne : loc = loc₀
    · exact Or.inr (hne ▸ hfile)
    · have hremoved := removed_of_removeWrites (hs.walks hready.cwd) hlive.1 howns
        (st.fatBuf .delete)
      have hdis : ∀ ld, ChainOf st.mount d st.currentDirCluster ld → List.Disjoint ld l :=
        fun ld hld => hs.dir_disjoint_entry hready.cwd hld hlive howns
      rw [hremoved.edit.slotAt_eq (hs.dirOk hready.cwd) hdis] at hloc
      rw [hremoved.edit.entryAt_eq hs.valid (hs.dirOk hready.cwd) hdis hloc hne] at hdead
      exact Or.inl hdead

/-- From `st` and `d`, a write of a file led to `st'` and `d'`, and reading its name ends
at the record just written and returns its data. -/
def WrittenFound (st : Driver) (d : Disk) (st' : Driver) (d' : Disk) (name : CString)
    (data : ℕ → UInt8) (size : ℕ) : Prop :=
  (∃ loc c, entryAt d' loc = newEntry name 0x00 c size ∧
      ((entryAt d loc).live = false ∨ Finds st d name loc) ∧ Finds st' d' name loc) ∧
    ∀ bufSize buf fuel, size ≤ bufSize → bufSize < 2 ^ 31 → loopBound < fuel →
      ∃ out st'', (fatRead fuel st' name buf bufSize).Returns d' (((size : ℤ), out), st'') [] ∧
        ∀ j < size, out j = data j

section Write

variable {st st' : Driver} {d : Disk} (hready : Ready st d) {name : CString}
  {data : ℕ → UInt8} {size fuel : ℕ} {writes : List (ℕ × Sector)}
  (hregular : (Op.write name data size).Regular ⟨st, d⟩)
  (h : (fatWrite fuel st name data size).Returns d (0, st') writes)
include hready hregular h

/-- A regular write that succeeds is a delete, and a store that has the room it needs. -/
theorem fatWrite_stored : ∃ code deleted first n loc l,
    (fatDelete fuel st name).Returns d (code, deleted) first ∧
    Stored st.mount st.currentDirCluster (applyWrites first d) (applyWrites writes d) name data
      size n loc l := by
  obtain ⟨hsize, l₀, hreplaced, hsupplies⟩ := hregular
  obtain ⟨code, fatBuf, taken, first, second, hdelete, hstore, rfl, hs₁, hcwd₁⟩ :=
    fatWrite_split hready.sound hready.cwd h
  rw [← table_after_delete hready.sound hready.cwd hdelete hreplaced] at hsupplies
  obtain ⟨a, halloc, -, -, hcases⟩ := storeFile_outcome (hs₁.walks hcwd₁) hsize hstore
  have hdone : a.complete = true := by
    rcases hcases with ⟨-, hfailed, -⟩ | ⟨hdone, -⟩ | ⟨_, hdone, -⟩
    · exact absurd hfailed (by decide)
    · exact hdone
    · exact hdone
  have hroom := room_of_supplies hsupplies halloc hdone
  obtain ⟨n, loc, l, hstored⟩ := stored_of_returns hs₁ hcwd₁ hsize hroom hstore
  rw [applyWrites_append]
  exact ⟨code, _, first, n, loc, l, hdelete, hstored⟩

/-- What is written is found again exactly when its name fits. -/
theorem writtenFound_iff (hname : ShellName name) :
    WrittenFound st d st' (applyWrites writes d) name data size ↔ Fits83 name := by
  have hready' := (fatWrite_changes hready hregular h).1
  have hwalk := hready.sound.walks hready.cwd
  have hwalk' := hready'.sound.walks hready'.cwd
  obtain ⟨hmount, hcwd⟩ := fatWrite_driver hready.sound hready.cwd hregular.1 h
  obtain ⟨code, deleted, first, n, loc, l, hdelete, hstored⟩ := fatWrite_stored hready hregular h
  constructor
  · rintro ⟨⟨loc, c, hentry, -, hfinds⟩, -⟩
    obtain ⟨k, -, htake, -⟩ := (finds_iff hwalk').mp hfinds
    rw [hentry] at htake
    exact (fileVerdict_newEntry hname.storable c size).mp htake
  · intro hfits
    obtain ⟨⟨fatBuf, rfl⟩, -⟩ := fatDelete_change hready hdelete
    have hnamed := hstored.named hname.storable hfits fun k hk loc' hloc' =>
      skip_before_free hready.sound hready.cwd hdelete hstored.free hk hloc'
    refine ⟨⟨loc, _, hstored.entry, ?_, (finds_iff hwalk').mpr ?_⟩, fun bufSize buf fuel' => ?_⟩
    · rw [finds_iff hwalk]
      exact free_of_deleted hready hdelete ⟨n, hstored.free⟩
    · rw [hmount, hcwd]
      exact hnamed
    · intro hle hbuf hfuel
      exact hstored.read hready.sound.valid hmount hcwd hnamed hle hbuf hfuel buf

end Write

/-! ## A file renamed -/

/-- From `st` and `d`, a rename led to `st'` and `d'`, and reading the new name ends at the
record that reading the old one ended at, under its new name. -/
def RenamedFound (st : Driver) (d : Disk) (st' : Driver) (d' : Disk)
    (oldName newName : CString) : Prop :=
  ∃ loc, Finds st d oldName loc ∧ entryAt d' loc = renamedEntry (entryAt d loc) newName ∧
    Finds st' d' newName loc

/-- The record of a file is taken by its new name exactly when that fits. -/
theorem fileVerdict_renamedEntry {newName : CString} (hname : Storable newName)
    {e : RawDirEntry} (hlive : e.live = true) (hfile : e.isDir = false) :
    fileVerdict newName (renamedEntry e newName) = .take ↔ Fits83 newName := by
  obtain ⟨hend, hdot, hlabel, hdir, -⟩ := renamedEntry_flags e newName
  have hdeleted : (renamedEntry e newName).isDeleted = false := by
    simpa [RawDirEntry.isDeleted, renamedEntry] using hname.split83_fst_zero_ne
  have hlive' : (renamedEntry e newName).live = true := by
    simp [RawDirEntry.live, hend, hdeleted, hlabel, hdir, hfile,
      RawDirEntry.isLabel_of_live hlive]
  rw [fileVerdict_eq_take_iff, matches_stored_iff hname rfl rfl, hdir]
  exact ⟨fun h => h.2.2, fun h => ⟨hlive', hfile, h⟩⟩

/-- What is renamed to a name not in use is found again exactly when the name fits. -/
theorem renamedFound_iff {st st' : Driver} {d : Disk} (hready : Ready st d)
    {oldName newName : CString} (hname : ShellName newName)
    (hnew : NameFree st.mount d st.currentDirCluster newName) {fuel : ℕ}
    {writes : List (ℕ × Sector)}
    (h : (fatRename fuel st oldName newName).Returns d (0, st') writes) :
    RenamedFound st d st' (applyWrites writes d) oldName newName ↔ Fits83 newName := by
  have hs := hready.sound
  have hwalk := hs.walks hready.cwd
  have hready' := hready.fatRename h
  have hwalk' := hready'.sound.walks hready'.cwd
  obtain ⟨⟨fatBuf, rfl⟩, ⟨-, hfailed, -⟩ | ⟨loc, hold, -, rfl⟩⟩ := fatRename_outcome hwalk h
  · exact absurd hfailed (by decide)
  · obtain ⟨⟨k, hlive⟩, hfile, -⟩ := hold.file
    obtain ⟨hedit, hentry, -⟩ := slotWrite_effect hwalk hlive.1
      (renamedEntry (entryAt d loc) newName)
    have htake := fileVerdict_renamedEntry (e := entryAt d loc) hname.storable hlive.2.1 hfile
    constructor
    · rintro ⟨loc', hfinds, hentry', hfinds'⟩
      obtain ⟨_, hold'⟩ := (finds_iff hwalk).mp hfinds
      obtain ⟨_, -, htake', -⟩ := (finds_iff hwalk').mp hfinds'
      obtain rfl := (hold'.unique hold.choose_spec).2
      rw [hentry'] at htake'
      exact htake.mp htake'
    · intro hfits
      have hdis := fun (ld : List ℕ) (_ : ChainOf st.mount d st.currentDirCluster ld) =>
        List.disjoint_nil_right ld
      have htake' := htake.mpr hfits
      rw [← hentry] at htake'
      refine ⟨loc, (finds_iff hwalk).mpr hold, hentry, (finds_iff hwalk').mpr ?_⟩
      refine named_of_put (n := k) hlive.1 (hedit.slotAt_eq (hs.dirOk hready.cwd) hdis) ?_ htake' ?_
      · intro j loc' hloc' hne
        exact hedit.entryAt_eq hs.valid (hs.dirOk hready.cwd) hdis hloc' hne
      · intro j hj loc' hloc'
        constructor
        · rintro rfl
          exact absurd (hs.slotAt_inj hready.cwd hready.cwd hloc' hlive.1).2 hj.ne
        · have hflags := hready.wellFormed.noLabelDir _ j loc' hready.cwd hloc'
          refine (hnew.skips hloc' hflags fun i hi x hx => ?_).1
          exact Bool.eq_false_iff.mpr (hlive.2.2 i (lt_of_le_of_lt hi hj) x hx)

/-! ## A directory made -/

/-- From `st` and `d`, a new directory led to `st'` and `d'`, and changing to its name
enters the cluster that was taken for it. -/
def MadeEntered (st : Driver) (d : Disk) (st' : Driver) (d' : Disk) (name : CString) : Prop :=
  ∃ loc, (entryAt d loc).live = false ∧
    entryAt d' loc = newEntry name 0x10 (nextFree st d .mkdir) 0 ∧
    ∀ fuel, loopBound < fuel → ∃ st'', (fatCd fuel st' name).Returns d' (0, st'') [] ∧
      st''.currentDirCluster = nextFree st d .mkdir

/-- The record of a directory is taken by the name it is stored under exactly when that
fits. -/
theorem dirVerdict_newEntry {name : CString} (hname : Storable name) (c : ℕ) :
    dirVerdict name (newEntry name 0x10 c 0) = .take ↔ Fits83 name := by
  obtain ⟨hend, hdot⟩ := newEntry_flags name 0x10 c 0
  have hdeleted : (newEntry name 0x10 c 0).isDeleted = false := by
    simpa [RawDirEntry.isDeleted, newEntry] using hname.split83_fst_zero_ne
  have hlabel : (newEntry name 0x10 c 0).isLabel = false := by
    simp [RawDirEntry.isLabel, newEntry, show ((0x10 : UInt8) &&& 0x08 != 0) = false by decide]
  have hdir : (newEntry name 0x10 c 0).isDir = true := by
    simp [RawDirEntry.isDir, newEntry]
  have hlive : (newEntry name 0x10 c 0).live = true := by
    simp [RawDirEntry.live, hend, hdeleted, hlabel, hdot]
  rw [dirVerdict_eq_take_iff (by simp [hlabel]), matches_stored_iff hname rfl rfl]
  exact ⟨fun h => h.2.2, fun h => ⟨hlive, hdir, h⟩⟩

/-- The path grows with the length of the name. -/
theorem length_cdPath_congr {path name name' : List UInt8} (h : name.length = name'.length) :
    (cdPath path name).length = (cdPath path name').length := by
  unfold cdPath
  split_ifs <;> simp [h]

/-- The name that a record stored under a name shows is as long as the name when that
fits. -/
theorem length_stored {name : CString} (hname : Storable name) (hfits : Fits83 name) :
    (cstr (makeName (split83 name).1 (split83 name).2)).length = name.chars.length := by
  have hsame := congrArg List.length ((matches_split83_iff hname.noSpace).mpr hfits)
  rwa [List.length_map, List.length_map] at hsame

/-- When a record is put in, the name of a directory not in use before finds that record or
nothing. -/
theorem named_dir_created {m : Mount} {d d' : Disk} (hw : WellFormed m d) {dirc : ℕ}
    (hreach : Reach m d dirc) {loc : Loc} {e : RawDirEntry} {a : Chained}
    (hcreated : Created m d d' loc e a) (hunused : Unused m d a.clusters) {name : CString}
    (hnew : NameFree m d dirc name) {loc' : Loc} (h : Named m d' dirc (dirVerdict name) loc') :
    loc' = loc := by
  obtain ⟨n, hloc', htake, hbefore⟩ := h
  have hs := hw.toSound
  have hslots := insert_slot hs hcreated.edit hunused dirc hreach
  by_contra hne
  have hslot : slotAt m (fatAt m d) dirc n = some loc' := (hslots n).symm.trans hloc'
  have hsame : entryAt d' loc' = entryAt d loc' :=
    insert_entry hs hcreated.edit hunused dirc n loc' hreach hslot hne
  have hflags := hw.noLabelDir dirc n loc' hreach hslot
  rw [← hsame] at hflags
  obtain ⟨hlive, -, hmatches⟩ := (dirVerdict_eq_take_iff hflags).mp htake
  have hliveAt : LiveAt m d' dirc n loc' := by
    refine ⟨hloc', hlive, fun k hk x hx => ?_⟩
    exact Bool.eq_false_iff.mp (isEnd_of_dirVerdict_skip (hbefore k hk x hx))
  rcases Forest.liveAt_of_insert (insert_slot hs hcreated.edit hunused)
    (insert_entry hs hcreated.edit hunused) hw.forest_tail hreach hliveAt with heq | hold
  · exact hne heq
  · rw [hsame, hnew n loc' hold] at hmatches
    exact absurd hmatches (by decide)

section Mkdir

variable {st st' : Driver} {d : Disk} (hready : Ready st d) {name : CString} {fuel : ℕ}
  {writes : List (ℕ × Sector)}
  (hsupplies : Supplies st.mount.totalClusters (DataCluster st.mount)
    (loaded st.mount d (st.fatBuf .mkdir)) 1)
  (h : (fatMkdir fuel st name).Returns d (0, st') writes)
include hready hsupplies h

/-- A new directory that the data clusters supply found one free. -/
theorem room_of_fatMkdir : 1 ≤ (freeClusters st.mount (fatAt st.mount d)).card := by
  obtain ⟨taken, htaken⟩ : ∃ taken, (fatMkdirTaken fuel st name).Returns d ((0, taken), st')
      writes := fatMkdir_returns_iff.mp h
  obtain ⟨a, halloc, -, ⟨-, -, hfailed, -⟩ | ⟨c, hdone, -⟩⟩ :=
    fatMkdirTaken_outcome (hready.sound.walks hready.cwd) htaken
  · exact absurd hfailed (by decide)
  · exact room_of_supplies hsupplies halloc hdone

/-- A directory made under a name not in use is entered under it exactly when the name
fits, and fits behind the path. -/
theorem madeEntered_iff (hname : Storable name) (hdown : name.chars ≠ [0x2E, 0x2E])
    (hnew : NameFree st.mount d st.currentDirCluster name) :
    MadeEntered st d st' (applyWrites writes d) name ↔
      Fits83 name ∧ (cdPath st.currentPath name.chars).length < 256 := by
  have hs := hready.sound
  have hw := hready.wellFormed
  have hroom := room_of_fatMkdir hready hsupplies h
  obtain ⟨hsound, hcwd⟩ := fatMkdir_sound hready hroom h
  have hwalk := hsound.walks hcwd
  obtain ⟨fatBuf, rfl, ⟨hfailed, -⟩ |
    ⟨c, k, loc, a, -, rfl, hok, -, hunused, htake, hcreated, -⟩⟩ :=
    fatMkdir_created hready hroom h
  · exact absurd hfailed (by decide)
  · have hwalk' : Walks (st.keepBuf .mkdir fatBuf).mount (applyWrites writes d)
        (st.keepBuf .mkdir fatBuf).currentDirCluster := hwalk
    have hdirs := fun ld (hld : ChainOf st.mount d st.currentDirCluster ld) =>
      hunused.disjoint_chain hld
    have hslots := hcreated.edit.slotAt_eq (hs.dirOk hready.cwd) hdirs
    have hothers : ∀ j loc', slotAt st.mount (fatAt st.mount d) st.currentDirCluster j = some loc' →
        loc' ≠ loc → entryAt (applyWrites writes d) loc' = entryAt d loc' := by
      intro j loc' hloc' hne
      exact hcreated.edit.entryAt_eq hs.valid (hs.dirOk hready.cwd) hdirs hloc' hne
    have honly : ∀ loc', Named st.mount (applyWrites writes d) st.currentDirCluster
        (dirVerdict name) loc' → loc' = loc := fun loc' hnamed =>
      named_dir_created hw hready.cwd hcreated hunused hnew hnamed
    have hfirst : (newEntry name 0x10 (nextFree st d .mkdir) 0).firstCluster.toNat =
        nextFree st d .mkdir := firstCluster_newEntry name 0x10 (hok.lt.trans (by decide)) 0
    have hlength : Fits83 name →
        (cdPath st.currentPath (cstr (makeName (entryAt (applyWrites writes d) loc).name
          (entryAt (applyWrites writes d) loc).ext))).length =
          (cdPath st.currentPath name.chars).length := by
      intro hfits
      rw [hcreated.entry]
      exact length_cdPath_congr (length_stored hname hfits)
    constructor
    · rintro ⟨-, -, -, hcd⟩
      obtain ⟨st'', hcd, -⟩ := hcd (loopBound + 1) (Nat.lt_succ_self _)
      by_cases hsome : ∃ loc', Named st.mount (applyWrites writes d) st.currentDirCluster
          (dirVerdict name) loc'
      · obtain ⟨loc', hnamed⟩ := hsome
        obtain rfl := honly loc' hnamed
        obtain ⟨_, -, htake', -⟩ := id hnamed
        rw [hcreated.entry] at htake'
        have hfits := (dirVerdict_newEntry hname _).mp htake'
        have hexec := fatCd_exec_some hwalk' hdown
          (Nat.lt_succ_self loopBound) hnamed
        rw [Returns] at hcd
        rw [hcd, Driver.keepBuf_currentPath, hlength hfits] at hexec
        split_ifs at hexec with hpath
        · exact ⟨hfits, hpath⟩
        · cases (Prod.mk.inj hexec).1
      · have hnone := fatCd_returns_none hwalk' hdown
          (Nat.lt_succ_self loopBound) (not_exists.mp hsome)
        exact absurd (Prod.mk.inj (hcd.unique hnone).1).1 (by decide)
    · rintro ⟨hfits, hpath⟩
      refine ⟨loc, live_eq_false_of_free htake.2.1, hcreated.entry, fun fuel' hfuel => ?_⟩
      have htake' : dirVerdict name (entryAt (applyWrites writes d) loc) = .take := by
        rw [hcreated.entry]
        exact (dirVerdict_newEntry hname _).mpr hfits
      have hnamed : Named st.mount (applyWrites writes d) st.currentDirCluster (dirVerdict name)
          loc := by
        refine named_of_put htake.1 hslots hothers htake' fun j hj loc' hloc' => ⟨?_, ?_⟩
        · rintro rfl
          exact absurd (hs.slotAt_inj hready.cwd hready.cwd hloc' htake.1).2 hj.ne
        · refine (hnew.skips hloc' (hw.noLabelDir _ j loc' hready.cwd hloc') fun i hi x hx => ?_).2
          exact (htake.before_free (lt_of_le_of_lt hi hj) hx).1
      have hexec := fatCd_exec_some hwalk' hdown hfuel hnamed
      rw [Driver.keepBuf_currentPath, hlength hfits, if_pos hpath] at hexec
      refine ⟨_, hexec, ?_⟩
      dsimp only
      rw [hcreated.entry]
      exact hfirst

end Mkdir

/-! ## Names of every shape -/

/-- **What is created under a name is found under it exactly when the name fits.** A
directory is entered when its name also fits behind the path. -/
theorem found_iff_fits83 {st : Driver} {d : Disk} (hready : Ready st d) {name : CString}
    (hname : ShellName name) :
    (∀ data size fuel st' writes, (Op.write name data size).Regular ⟨st, d⟩ →
      (fatWrite fuel st name data size).Returns d (0, st') writes →
      (WrittenFound st d st' (applyWrites writes d) name data size ↔ Fits83 name)) ∧
    (∀ fuel st' writes, Supplies st.mount.totalClusters (DataCluster st.mount)
        (loaded st.mount d (st.fatBuf .mkdir)) 1 →
      NameFree st.mount d st.currentDirCluster name →
      (fatMkdir fuel st name).Returns d (0, st') writes →
      (MadeEntered st d st' (applyWrites writes d) name ↔
        Fits83 name ∧ (cdPath st.currentPath name.chars).length < 256)) ∧
    ∀ oldName fuel st' writes, NameFree st.mount d st.currentDirCluster name →
      (fatRename fuel st oldName name).Returns d (0, st') writes →
      (RenamedFound st d st' (applyWrites writes d) oldName name ↔ Fits83 name) := by
  refine ⟨?_, ?_, ?_⟩
  · intro data size fuel st' writes hregular h
    exact writtenFound_iff hready hregular h hname
  · intro fuel st' writes hsupplies hnew h
    exact madeEntered_iff hready hsupplies h hname.storable hname.down hnew
  · intro oldName fuel st' writes hnew h
    exact renamedFound_iff hready hname hnew h

theorem nameFree_blank (name : CString) : NameFree smallMount blank 0 name :=
  fun n loc hlive => absurd hlive (not_liveAt_blank _ _ n loc)

theorem nameFree_fileDisk : NameFree smallMount fileDisk 0 nameB := by
  intro n loc hlive
  obtain ⟨-, rfl⟩ := liveAt_fileDisk_iff.mp hlive
  exact entryAt_fileDisk.2.2.1

theorem shellName_nameA : ShellName nameA :=
  ⟨by decide +kernel, by decide +kernel, by decide +kernel⟩

theorem shellName_nameB : ShellName nameB :=
  ⟨by decide +kernel, by decide +kernel, by decide +kernel⟩

/-- On a blank volume `A` is written and found, and made and entered; on the volume with
`A` it is renamed to `B` and found. -/
theorem found_iff_fits83_blank :
    (∃ st' d', WrittenFound (freshDriver smallMount) blank st' d' nameA (fun _ => 7) 1) ∧
    (∃ st' d', MadeEntered (freshDriver smallMount) blank st' d' nameA) ∧
    ∃ st' d', RenamedFound (freshDriver smallMount) fileDisk st' d' nameA nameB := by
  have hblank := ready_blankSystem
  obtain ⟨hwrite, hmkdir, -⟩ := found_iff_fits83 hblank shellName_nameA
  obtain ⟨-, -, hrename⟩ := found_iff_fits83 ready_fileDisk shellName_nameB
  obtain ⟨written, hstore⟩ := storeA_returns
  have hmade : ((fatMkdir 4 (freshDriver smallMount) nameA).exec blank).1.map Prod.fst = .ok 0 :=
    rfl
  have hrenamed : ((fatRename 4 (freshDriver smallMount) nameA nameB).exec fileDisk).1.map
      Prod.fst = .ok 0 := rfl
  obtain ⟨made, hmade⟩ := returns_of_exec hmade
  obtain ⟨renamed, hrenamed⟩ := returns_of_exec hrenamed
  have hwritten := (hwrite _ _ _ _ _ regular_write_blank hstore).mpr (by decide)
  have hentered := (hmkdir _ _ _ supplies_blank (nameFree_blank nameA) hmade).mpr
    ⟨by decide, by decide⟩
  have hfound := (hrename _ _ _ _ nameFree_fileDisk hrenamed).mpr (by decide)
  exact ⟨⟨written, _, hwritten⟩, ⟨made, _, hentered⟩, renamed, _, hfound⟩

/-- A name with a ninth letter. -/
def nameNine : CString :=
  ⟨[0x41, 0x42, 0x43, 0x44, 0x45, 0x46, 0x47, 0x48, 0x49], by decide +kernel⟩

/-- **Nothing is found under nine letters.** A file is written under them, a directory is
made under them and a file is renamed to them; then neither `fat_read` nor `fat_cd` finds
any of them. -/
theorem not_found_nameNine :
    Ready blankSystem.driver blankSystem.disk ∧ ShellName nameNine ∧
    NameFree smallMount blank 0 nameNine ∧
    (let op := Op.write nameNine (fun _ => 7) 1
      let s := blankSystem.next 4 op
      ((op.run 4 blankSystem.driver).exec blankSystem.disk).1.map Prod.fst = .ok 0 ∧
        ((fatRead 4 s.driver nameNine (fun _ => 0) 1).exec s.disk).1.map (·.1.1) = .ok (-1)) ∧
    (let op := Op.mkdir nameNine
      let s := blankSystem.next 4 op
      ((op.run 4 blankSystem.driver).exec blankSystem.disk).1.map Prod.fst = .ok 0 ∧
        ((fatCd 4 s.driver nameNine).exec s.disk).1.map Prod.fst = .ok (-1)) ∧
    (let op := Op.rename nameA nameNine
      let s := System.next 4 ⟨freshDriver smallMount, fileDisk⟩ op
      ((op.run 4 (freshDriver smallMount)).exec fileDisk).1.map Prod.fst = .ok 0 ∧
        ((fatRead 4 s.driver nameNine (fun _ => 0) 1).exec s.disk).1.map (·.1.1) = .ok (-1)) := by
  refine ⟨ready_blankSystem, ⟨by decide +kernel, by decide +kernel, by decide +kernel⟩,
    nameFree_blank _, ?_, ?_, ?_⟩
  · decide +kernel
  · decide +kernel
  · decide +kernel

end MasterOS.Fat
