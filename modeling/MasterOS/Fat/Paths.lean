/-
# The current path

`fat_cd` keeps the current directory twice: as a cluster, and as a string that grows by a
slash and a name with every directory entered. The string never shrinks by one name: the
only way up goes to the root.

The two agree as long as every directory entered has a name with something in it and no
slash, and as long as the string fits its array. The other calls keep them agreed: they
change records of the current directory only, and no directory on the way to it is the
current directory itself.
-/

import MasterOS.Fat.Regular
import MasterOS.Fat.Calls

namespace MasterOS.Fat

open MasterOS.Device MasterOS.Device.Prog MasterOS.Math

/-! ## Following a path -/

/-- Entering directories of these names one by one, from the root, leads to a
directory. -/
inductive Leads (m : Mount) (d : Disk) : List (List UInt8) → ℕ → Prop
  | root : Leads m d [] 0
  | enter {names : List (List UInt8)} {c : ℕ} {name : CString} {loc : Loc} :
      Leads m d names c → Named m d c (dirVerdict name) loc →
      Leads m d (names ++ [name.chars]) (entryAt d loc).firstCluster.toNat

/-- The last name of a way, or the root. -/
theorem Leads.split {m : Mount} {d : Disk} {names : List (List UInt8)} {c : ℕ}
    (h : Leads m d names c) : names = [] ∧ c = 0 ∨
      ∃ front up, ∃ name : CString, ∃ loc, names = front ++ [name.chars] ∧ Leads m d front up ∧
        Named m d up (dirVerdict name) loc ∧ (entryAt d loc).firstCluster.toNat = c := by
  cases h with
  | root => exact Or.inl ⟨rfl, rfl⟩
  | @enter front up name loc hup hnamed =>
      exact Or.inr ⟨front, up, name, loc, rfl, hup, hnamed, rfl⟩

section Leads

variable {m : Mount} {d : Disk} (hw : WellFormed m d)
include hw

theorem Leads.reach {names : List (List UInt8)} {c : ℕ} (h : Leads m d names c) :
    Reach m d c := by
  induction h with
  | root => exact .root
  | enter _ hnamed ih =>
      obtain ⟨⟨n, hlive⟩, hdir, -⟩ := hnamed.dir hw ih
      exact .child ih hlive (child_eq_some_iff.mpr ⟨hdir, rfl⟩)

/-- A directory has one record that leads to it, and the root has none. -/
theorem parent_unique {c c' : ℕ} {n n' : ℕ} {loc loc' : Loc} (hc : Reach m d c)
    (hc' : Reach m d c') (hlive : LiveAt m d c n loc) (hlive' : LiveAt m d c' n' loc')
    (hdir : (entryAt d loc).isDir = true) (hdir' : (entryAt d loc').isDir = true)
    (heq : (entryAt d loc).firstCluster.toNat = (entryAt d loc').firstCluster.toNat) :
    c = c' := by
  have hs := hw.toSound
  obtain ⟨l, howns⟩ := hs.owns loc (hlive.live hc)
  obtain ⟨l', howns'⟩ := hs.owns loc' (hlive'.live hc')
  have hchain := howns.chain_of_isDir hdir
  have hchain' := howns'.chain_of_isDir hdir'
  have hmem' : (entryAt d loc).firstCluster.toNat ∈ l' := heq ▸ hchain'.head_mem
  have hloc : loc = loc' := by
    by_contra hne
    exact hs.disjoint loc loc' l l' (hlive.live hc) (hlive'.live hc') hne howns howns'
      hchain.head_mem hmem'
  subst hloc
  exact (hs.slotAt_inj hc hc' hlive.1 hlive'.1).1

theorem child_ne_zero {c n : ℕ} {loc : Loc} (hc : Reach m d c) (hlive : LiveAt m d c n loc)
    (hdir : (entryAt d loc).isDir = true) : (entryAt d loc).firstCluster.toNat ≠ 0 := by
  obtain ⟨l, howns⟩ := hw.owns loc (hlive.live hc)
  have := (howns.chain_of_isDir hdir).ok_head.1
  omega

/-- Every way to a directory is equally long: the parents are the same all the way up. -/
theorem Leads.length_unique {names names' : List (List UInt8)} {c : ℕ} (h : Leads m d names c)
    (h' : Leads m d names' c) : names.length = names'.length := by
  induction h generalizing names' with
  | root =>
      rcases h'.split with ⟨rfl, -⟩ | ⟨front, up, name, loc, -, hup, hnamed, hzero⟩
      · rfl
      · obtain ⟨⟨n, hlive⟩, hdir, -⟩ := hnamed.dir hw (hup.reach hw)
        exact absurd hzero (child_ne_zero hw (hup.reach hw) hlive hdir)
  | @enter names c name loc hbefore hnamed ih =>
      obtain ⟨⟨n, hlive⟩, hdir, -⟩ := hnamed.dir hw (hbefore.reach hw)
      rcases h'.split with ⟨-, hzero⟩ | ⟨front, up, name', loc', rfl, hup, hnamed', heq⟩
      · exact absurd hzero (child_ne_zero hw (hbefore.reach hw) hlive hdir)
      · obtain ⟨⟨n', hlive'⟩, hdir', -⟩ := hnamed'.dir hw (hup.reach hw)
        obtain rfl := parent_unique hw (hup.reach hw) (hbefore.reach hw) hlive' hlive hdir' hdir
          heq
        rw [List.length_append, List.length_append, ih hup]
        rfl

/-- **A change in the directory a way leads to leaves the way.** The directories on the way
lie above it, so none of them is the one changed, or one removed from it. -/
theorem Leads.change {d' : Disk} {names : List (List UInt8)} {cwd : ℕ} (h : Leads m d names cwd)
    {put : Option (Loc × RawDirEntry)} (hchange : Change m cwd d d' put) :
    Leads m d' names cwd := by
  have hcwd := h.reach hw
  suffices hpre : ∀ front up, Leads m d front up → front.length ≤ names.length →
      Leads m d' front up from hpre names cwd h le_rfl
  intro front up hfront
  induction hfront with
  | root => exact fun _ => .root
  | @enter front up name loc hup hnamed ih =>
      intro hlen
      rw [List.length_append, List.length_singleton] at hlen
      have hne : up ≠ cwd := by
        rintro rfl
        have := hup.length_unique hw h
        omega
      have hchild : ∀ n loc₀, LiveAt m d cwd n loc₀ → (entryAt d loc₀).isDir = true →
          (entryAt d loc₀).firstCluster.toNat ≠ up := by
        intro n loc₀ hlive hdir heq
        rcases hup.split with ⟨-, hzero⟩ | ⟨front', up', name', loc', rfl, hup', hnamed', heq'⟩
        · exact child_ne_zero hw hcwd hlive hdir (heq.trans hzero)
        · obtain ⟨⟨n', hlive'⟩, hdir', -⟩ := hnamed'.dir hw (hup'.reach hw)
          obtain rfl := parent_unique hw hcwd (hup'.reach hw) hlive hlive' hdir hdir'
            (heq.trans heq'.symm)
          have := hup'.length_unique hw h
          rw [List.length_append, List.length_singleton] at hlen
          omega
      obtain ⟨hnamed', hsame⟩ :=
        hchange.named hw hcwd (hup.reach hw) hne hchild hnamed
      rw [← hsame]
      exact .enter (ih (by omega)) hnamed'

end Leads

/-! ## The path as a string -/

/-- The names between the slashes of a path. -/
def pathNames (path : List UInt8) : List (List UInt8) :=
  (path.splitOn 0x2F).filter fun name => !name.isEmpty

/-- Entering a directory puts its name behind the others. -/
theorem pathNames_cdPath {path name : List UInt8} (hrooted : path.head? = some 0x2F)
    (hname : name ≠ []) (hslash : 0x2F ∉ name) :
    pathNames (cdPath path name) = pathNames path ++ [name] := by
  have hsplit (front : List UInt8) :
      pathNames (front ++ 0x2F :: name) = pathNames front ++ [name] := by
    rw [pathNames, List.splitOn_append_cons_self, List.splitOn_eq_singleton hslash,
      List.filter_append]
    simp [pathNames, hname]
  rw [cdPath]
  split_ifs with hshort
  · -- the path is the root's
    obtain ⟨rest, rfl⟩ := List.head?_eq_some_iff.mp hrooted
    obtain rfl : rest = [] := by
      rw [List.length_cons] at hshort
      exact List.length_eq_zero_iff.mp (by omega)
    exact hsplit []
  · exact hsplit path

theorem cstr_noNul (chars : List UInt8) : ∀ b ∈ cstr chars, b ≠ 0 := by
  intro b hb
  have := List.mem_takeWhile_imp hb
  simpa using this

/-- A directory search does not tell names apart by case. -/
theorem dirVerdict_congr {name name' : CString}
    (h : name.chars.map kToupper = name'.chars.map kToupper) :
    dirVerdict name = dirVerdict name' := by
  funext e
  have hmatches : e.matches name = e.matches name' := by
    rw [Bool.eq_iff_iff, RawDirEntry.matches_iff, RawDirEntry.matches_iff, h]
  rw [dirVerdict, dirVerdict, hmatches]

/-- What a record shows has something in it and no slash when the name that finds it has
something in it and no slash. -/
theorem shown_plain {e : RawDirEntry} {name : CString} (hmatches : e.matches name = true)
    (hname : name.chars ≠ []) (hslash : 0x2F ∉ name.chars) :
    cstr (makeName e.name e.ext) ≠ [] ∧ 0x2F ∉ cstr (makeName e.name e.ext) := by
  have hupper := (RawDirEntry.matches_iff e name).mp hmatches
  constructor
  · intro hnil
    rw [hnil, List.map_nil] at hupper
    exact hname (List.map_eq_nil_iff.mp hupper.symm)
  · intro hmem
    have hmem' := List.mem_map_of_mem (f := kToupper) hmem
    rw [hupper] at hmem'
    obtain ⟨c, hc, hslash'⟩ := List.mem_map.mp hmem'
    have hc' : c = 0x2F :=
      (kToupper_eq_iff (b := 0x2F) (by decide)).mp (hslash'.trans (by decide))
    exact hslash (hc' ▸ hc)

/-- The path fits its array with the terminator behind it, is rooted, and leads to the
current directory. -/
structure PathTrue (s : System) : Prop where
  bounded : s.driver.currentPath.length < 256
  noNul : ∀ b ∈ s.driver.currentPath, b ≠ 0
  rooted : s.driver.currentPath.head? = some 0x2F
  leads : Leads s.driver.mount s.disk (pathNames s.driver.currentPath)
    s.driver.currentDirCluster

/-- The path that the driver starts with is true. -/
theorem pathTrue_of_root {s : System} (hcwd : s.driver.currentDirCluster = 0)
    (hpath : s.driver.currentPath = [0x2F]) : PathTrue s := by
  refine ⟨by rw [hpath]; decide, ?_, by rw [hpath]; rfl, ?_⟩
  · rw [hpath]
    decide +kernel
  · rw [hpath, hcwd]
    exact .root

/-- A change of directory enters only a directory whose name has something in it and no
slash, and whose name fits behind the path. -/
def Op.EntersPlain (s : System) : Op → Prop
  | .cd name => name.chars ≠ [0x2E, 0x2E] →
      ∀ loc, Named s.driver.mount s.disk s.driver.currentDirCluster (dirVerdict name) loc →
        name.chars ≠ [] ∧ 0x2F ∉ name.chars ∧ PathFits s.driver (entryAt s.disk loc)
  | _ => True

namespace PathTrue

variable {s : System} (h : PathTrue s) (hready : Ready s.driver s.disk)
include h hready

/-- A change in the current directory leaves the path true. -/
theorem change {d' : Disk} {put : Option (Loc × RawDirEntry)}
    (hchange : Change s.driver.mount s.driver.currentDirCluster s.disk d' put) :
    PathTrue ⟨s.driver, d'⟩ :=
  ⟨h.bounded, h.noNul, h.rooted, h.leads.change hready.wellFormed hchange⟩

omit hready in
/-- The path is a matter of three statics and the disk. -/
theorem of_driver {st : Driver} (hmount : st.mount = s.driver.mount)
    (hcwd : st.currentDirCluster = s.driver.currentDirCluster)
    (hpath : st.currentPath = s.driver.currentPath) : PathTrue ⟨st, s.disk⟩ := by
  refine ⟨?_, ?_, ?_, ?_⟩
  · exact hpath ▸ h.bounded
  · exact hpath ▸ h.noNul
  · exact hpath ▸ h.rooted
  · show Leads st.mount s.disk (pathNames st.currentPath) st.currentDirCluster
    rw [hmount, hcwd, hpath]
    exact h.leads

/-- Entering a directory makes the path longer by its name, and true of it. -/
theorem enter {name : CString} {loc : Loc}
    (hnamed : Named s.driver.mount s.disk s.driver.currentDirCluster (dirVerdict name) loc)
    (hname : name.chars ≠ []) (hslash : 0x2F ∉ name.chars)
    (hfits : PathFits s.driver (entryAt s.disk loc)) (fatBuf : FatBuf) :
    PathTrue ⟨{ s.driver.keepBuf .cd fatBuf with
      currentDirCluster := (entryAt s.disk loc).firstCluster.toNat,
      currentPath := cdPath s.driver.currentPath (cstr (makeName (entryAt s.disk loc).name
        (entryAt s.disk loc).ext)) }, s.disk⟩ := by
  obtain ⟨-, -, hmatches⟩ := hnamed.dir hready.wellFormed hready.cwd
  obtain ⟨hshown, hnoSlash⟩ := shown_plain hmatches hname hslash
  let shown : CString :=
    ⟨cstr (makeName (entryAt s.disk loc).name (entryAt s.disk loc).ext), cstr_noNul _⟩
  have hsame : dirVerdict shown = dirVerdict name :=
    dirVerdict_congr ((RawDirEntry.matches_iff _ _).mp hmatches)
  have hnamed' : Named s.driver.mount s.disk s.driver.currentDirCluster (dirVerdict shown) loc :=
    hsame ▸ hnamed
  refine ⟨hfits, ?_, ?_, ?_⟩
  · intro b hb
    dsimp only [cdPath] at hb
    split_ifs at hb
    · rcases List.mem_cons.mp hb with rfl | hb
      · decide
      · exact cstr_noNul _ b hb
    · rcases List.mem_append.mp hb with hb | hb
      · exact h.noNul b hb
      · rcases List.mem_cons.mp hb with rfl | hb
        · decide
        · exact cstr_noNul _ b hb
  · dsimp only [cdPath]
    split_ifs
    · rfl
    · obtain ⟨rest, hrest⟩ := List.head?_eq_some_iff.mp h.rooted
      rw [hrest]
      rfl
  · dsimp only
    rw [pathNames_cdPath h.rooted hshown hnoSlash]
    exact .enter h.leads hnamed'

/-- A regular call that enters only plain names leaves the path true. -/
theorem step {s' : System} (hstep : Step (fun s op => op.Regular s ∧ op.EntersPlain s) s s') :
    PathTrue s' := by
  obtain ⟨op, ⟨hregular, hplain⟩, hreturns⟩ := hstep
  cases op with
  | write name data size =>
      obtain ⟨-, hmount, hcwd, hpath, d₁, put, hready₁, hdelete, hstore, -⟩ :=
        fatWrite_changes hready hregular hreturns
      have h₁ := h.change hready hdelete
      exact (h₁.change hready₁ hstore).of_driver hmount hcwd hpath
  | delete name =>
      obtain ⟨⟨fatBuf, rfl⟩, hchange⟩ := fatDelete_change hready hreturns
      exact (h.change hready hchange).of_driver rfl rfl rfl
  | rename oldName newName =>
      obtain ⟨⟨fatBuf, rfl⟩, put, hchange, -⟩ := fatRename_change hready hreturns
      exact (h.change hready hchange).of_driver rfl rfl rfl
  | mkdir name =>
      obtain ⟨-, ⟨fatBuf, rfl⟩, put, hchange, -⟩ :=
        fatMkdir_change hready hregular.1 hregular.2 hreturns
      exact (h.change hready hchange).of_driver rfl rfl rfl
  | rmdir name =>
      obtain ⟨⟨fatBuf, rfl⟩, hchange⟩ := fatRmdir_change hready hreturns
      exact (h.change hready hchange).of_driver rfl rfl rfl
  | cd name =>
      obtain ⟨rfl, hcases⟩ := fatCd_cases (hready.sound.walks hready.cwd) hreturns
      rcases hcases with ⟨-, rfl⟩ | ⟨-, fatBuf, rfl⟩ | ⟨loc, fatBuf, hup, hnamed, -, rfl⟩
      · exact pathTrue_of_root rfl rfl
      · exact h.of_driver rfl rfl rfl
      · obtain ⟨hname, hslash, hfits⟩ := hplain hup loc hnamed
        exact h.enter hready hnamed hname hslash hfits fatBuf

end PathTrue

/-- **The path stays bounded and true over whole runs** that enter plain names. In every
state reached the path is true, and every further change of directory that enters a plain
name returns, so it writes inside the array. -/
theorem run_pathTrue {s s' : System} (hw : WellFormed s.driver.mount s.disk)
    (hcwd : s.driver.currentDirCluster = 0) (hpath : s.driver.currentPath = [0x2F])
    (hrun : Run (fun s op => op.Regular s ∧ op.EntersPlain s) s s') :
    PathTrue s' ∧ ∀ name fuel, loopBound < fuel → (Op.cd name).EntersPlain s' →
      ∃ r st', (fatCd fuel s'.driver name).Returns s'.disk (r, st') [] := by
  have hstart : Ready s.driver s.disk := ⟨hw, hcwd ▸ .root⟩
  have hreached : Ready s'.driver s'.disk ∧ PathTrue s' := by
    induction hrun with
    | refl => exact ⟨hstart, pathTrue_of_root hcwd hpath⟩
    | tail _ hstep ih =>
        obtain ⟨op, hallowed, hreturns⟩ := id hstep
        exact ⟨ih.1.step_regular (.call op hallowed.1 hreturns), ih.2.step ih.1 hstep⟩
  obtain ⟨hready, htrue⟩ := hreached
  refine ⟨htrue, fun name fuel hfuel hplain => ?_⟩
  have hwalk := hready.sound.walks hready.cwd
  by_cases hup : name.chars = [0x2E, 0x2E]
  · exact ⟨0, _, fatCd_up hwalk.valid.initialized hup fuel s'.disk⟩
  · by_cases hnamed : ∃ loc, Named s'.driver.mount s'.disk s'.driver.currentDirCluster
        (dirVerdict name) loc
    · obtain ⟨loc, hnamed⟩ := hnamed
      have hexec := fatCd_exec_some hwalk hup hfuel hnamed
      have hfits : (cdPath s'.driver.currentPath (cstr (makeName (entryAt s'.disk loc).name
          (entryAt s'.disk loc).ext))).length < 256 := (hplain hup loc hnamed).2.2
      rw [if_pos hfits] at hexec
      exact ⟨0, _, hexec⟩
    · exact ⟨-1, _, fatCd_returns_none hwalk hup hfuel (not_exists.mp hnamed)⟩

/-- A name shown has at most eight bytes, a dot and three bytes. -/
theorem cstr_makeName_length_le (rawName : Fin 8 → UInt8) (rawExt : Fin 3 → UInt8) :
    (cstr (makeName rawName rawExt)).length ≤ 12 := by
  have hbase : ((List.ofFn rawName).takeWhile (· != 0x20)).length ≤ 8 :=
    (List.takeWhile_prefix _).length_le.trans_eq List.length_ofFn
  have hext : ((List.ofFn rawExt).takeWhile (· != 0x20)).length ≤ 3 :=
    (List.takeWhile_prefix _).length_le.trans_eq List.length_ofFn
  refine (List.takeWhile_prefix _).length_le.trans ?_
  unfold makeName
  split_ifs
  · rw [List.length_append, List.length_cons]
    omega
  · exact hbase.trans (by decide)

/-- Every name fits behind a path that leaves thirteen bytes of the array. -/
theorem pathFits_of_le {st : Driver} (hpath : st.currentPath.length ≤ 242) (e : RawDirEntry) :
    PathFits st e := by
  have hle := cstr_makeName_length_le e.name e.ext
  unfold PathFits cdPath
  split_ifs
  · rw [List.length_cons]
    omega
  · rw [List.length_append, List.length_cons]
    omega

/-- Every name fits behind the root. -/
theorem pathFits_of_root {st : Driver} (hpath : st.currentPath = [0x2F]) (e : RawDirEntry) :
    PathFits st e :=
  pathFits_of_le (by rw [hpath]; decide) e

/-- Any run leaves the volume mounted. -/
theorem run_mount {s s' : System} {allowed : System → Op → Prop} (hrun : Run allowed s s') :
    s'.driver.mount = s.driver.mount := by
  induction hrun with
  | refl => rfl
  | tail _ hstep ih =>
      obtain ⟨op, -, hreturns⟩ := hstep
      exact ((Call.run_tails _ _ (.op op)).of_returns hreturns).mount.trans ih

/-- The state that making `A` on a blank volume leaves. -/
def madeA : System := blankSystem.next 4 (.mkdir nameA)

/-- `A` is then entered. -/
def enteredA : System := madeA.next 4 (.cd nameA)

/-- `B` inside `A`, both made, and the current directory `A`. -/
def inA : System := blankSystem.after 4 [.mkdir nameA, .cd nameA, .mkdir nameB]

/-- `A` is made and entered, `B` is made inside it, and can be entered. -/
theorem run_pathTrue_blank : PathTrue inA ∧ inA.driver.currentPath = [0x2F, 0x41] ∧
    inA.driver.currentDirCluster = 2 ∧
    ∃ st', (fatCd (loopBound + 1) inA.driver nameB).Returns inA.disk (0, st') [] := by
  have hmakeA : (Op.mkdir nameA).HasRoom blankSystem :=
    room_of_free (c := 2) (by decide) (fatAt_blank _ _)
  have hpath : madeA.driver.currentPath = [0x2F] ∧ inA.driver.currentPath = [0x2F, 0x41] ∧
      inA.driver.currentDirCluster = 2 := by
    decide +kernel
  have henterA : (Op.cd nameA).EntersPlain madeA := fun _ loc _ =>
    ⟨by decide, by decide, pathFits_of_root hpath.1 _⟩
  have hmade : Run (fun s op => op.Regular s ∧ op.EntersPlain s) blankSystem madeA :=
    blankSystem.run_next 4 (.mkdir nameA) ⟨hmakeA.regular_mkdir rfl, trivial⟩
  have hbefore : Run (fun s op => op.Regular s ∧ op.EntersPlain s) blankSystem enteredA :=
    hmade.trans (madeA.run_next 4 (.cd nameA) ⟨trivial, henterA⟩)
  have hmount : enteredA.driver.mount = smallMount := run_mount hbefore
  have hmakeB : (Op.mkdir nameB).HasRoom enteredA := by
    refine room_of_free (c := 3) ?_ ?_
    · rw [hmount]
      decide
    · rw [hmount]
      decide +kernel
  have hspc : enteredA.driver.mount.spc = 1 := by
    rw [hmount]
    rfl
  have hrun : Run (fun s op => op.Regular s ∧ op.EntersPlain s) blankSystem inA :=
    hbefore.trans (enteredA.run_next 4 (.mkdir nameB) ⟨hmakeB.regular_mkdir hspc, trivial⟩)
  obtain ⟨htrue, hcd⟩ := run_pathTrue ready_blankSystem.wellFormed rfl rfl hrun
  have henterB : (Op.cd nameB).EntersPlain inA := fun _ loc _ =>
    ⟨by decide, by decide, pathFits_of_le (by rw [hpath.2.1]; decide) _⟩
  obtain ⟨r, st', hreturns⟩ := hcd nameB _ (Nat.lt_succ_self loopBound) henterB
  have hcode : ((fatCd 4 inA.driver nameB).exec inA.disk).1.map Prod.fst = .ok 0 := by
    decide +kernel
  obtain ⟨st'', hentered⟩ := returns_of_exec hcode
  obtain ⟨hsame, -⟩ := hreturns.unique (fatCd_extends (by decide) _ _ _ _ _ hentered)
  obtain ⟨rfl, -⟩ := Prod.mk.inj hsame
  exact ⟨htrue, hpath.2.1, hpath.2.2, st', hreturns⟩

/-- A name as long as a name can be: thirteen bytes of the path with its slash. -/
def nameLong : CString :=
  ⟨[0x41, 0x41, 0x41, 0x41, 0x41, 0x41, 0x41, 0x41, 0x2E, 0x41, 0x41, 0x41], by decide +kernel⟩

/-- Nineteen directories inside each other, and a twentieth inside the last of them. -/
def deep : System := blankSystem.after 4
  ((List.replicate 19 [Op.mkdir nameLong, Op.cd nameLong]).flatten ++ [.mkdir nameLong])

/-- **The twentieth directory is behind the end of the path.** -/
theorem fatCd_overruns_deep :
    Ready blankSystem.driver blankSystem.disk ∧ blankSystem.driver.currentDirCluster = 0 ∧
    blankSystem.driver.currentPath = [0x2F] ∧ Run (fun _ _ => True) blankSystem deep ∧
    ((fatCd 4 deep.driver nameLong).exec deep.disk).1.map Prod.fst = .error .outOfBounds :=
  ⟨ready_blankSystem, rfl, rfl, run_after _ _ _, by decide +kernel⟩

/-! ## The way up -/

/-- **A directory entered is left for the directory before exactly when that was the
root.** The way up does not read the record of the parent that `fat_mkdir` leaves. -/
theorem run_fatCd_up_iff {s s' : System} (hmounted : s.driver.mount.initialized = true)
    (hrun : Run (fun _ _ => True) s s') {name : CString}
    {fuel : ℕ} {st' : Driver} {writes : List (ℕ × Sector)}
    (hcd : (fatCd fuel s'.driver name).Returns s'.disk (0, st') writes) (fuel' : ℕ) :
    (∃ st'' writes', (fatCd fuel' st' dotDot).Returns (applyWrites writes s'.disk) (0, st'')
        writes' ∧
      st''.currentDirCluster = s'.driver.currentDirCluster ∧
      st''.currentPath = s'.driver.currentPath) ↔
    s'.driver.currentDirCluster = 0 ∧ s'.driver.currentPath = [0x2F] := by
  have hkept : st'.mount = s.driver.mount :=
    ((fatCd_tails fuel s'.driver name).of_returns hcd).mount.trans (run_mount hrun)
  have hdots : dotDot.chars = [0x2E, 0x2E] := rfl
  have hup := fatCd_up (hkept ▸ hmounted) hdots fuel' (applyWrites writes s'.disk)
  constructor
  · rintro ⟨st'', writes', hback, hcwd, hpath⟩
    obtain ⟨hresult, -⟩ := hback.unique hup
    obtain rfl := (Prod.mk.inj hresult).2
    exact ⟨hcwd.symm, hpath.symm⟩
  · rintro ⟨hcwd, hpath⟩
    exact ⟨_, _, hup, hcwd.symm, hpath.symm⟩

/-- From the root of the blank volume with `A`, the way into `A` and up leads back. -/
theorem run_fatCd_up_blank : ∃ st' writes st'' writes',
    (fatCd 4 madeA.driver nameA).Returns madeA.disk (0, st') writes ∧
    (fatCd 4 st' dotDot).Returns (applyWrites writes madeA.disk) (0, st'') writes' ∧
    st''.currentDirCluster = madeA.driver.currentDirCluster ∧
    st''.currentPath = madeA.driver.currentPath := by
  have hcode : ((fatCd 4 madeA.driver nameA).exec madeA.disk).1.map Prod.fst = .ok 0 := by
    decide +kernel
  have hroot : madeA.driver.currentDirCluster = 0 ∧ madeA.driver.currentPath = [0x2F] := by
    decide +kernel
  obtain ⟨st', hcd⟩ := returns_of_exec hcode
  obtain ⟨st'', writes', hback⟩ :=
    (run_fatCd_up_iff rfl (run_after 4 blankSystem [.mkdir nameA]) hcd 4).mpr hroot
  exact ⟨st', _, st'', writes', hcd, hback⟩

/-- **Up from `/A/B` is not `/A`.** -/
theorem fatCd_up_inA :
    Ready blankSystem.driver blankSystem.disk ∧
    Run (fun _ _ => True) blankSystem inA ∧
    nameB.chars ≠ [0x2E, 0x2E] ∧ ∃ st' writes st'',
      (fatCd 4 inA.driver nameB).Returns inA.disk (0, st') writes ∧
      (fatCd 4 st' dotDot).Returns (applyWrites writes inA.disk) (0, st'') [] ∧
      inA.driver.currentDirCluster = 2 ∧ st''.currentDirCluster = 0 ∧
      inA.driver.currentPath = [0x2F, 0x41] ∧ st''.currentPath = [0x2F] := by
  have hcode : ((fatCd 4 inA.driver nameB).exec inA.disk).1.map Prod.fst = .ok 0 := by
    decide +kernel
  have hinside : inA.driver.currentDirCluster = 2 ∧ inA.driver.currentPath = [0x2F, 0x41] := by
    decide +kernel
  have hrun := run_after 4 blankSystem [.mkdir nameA, .cd nameA, .mkdir nameB]
  obtain ⟨st', hcd⟩ := returns_of_exec hcode
  have hkept := ((fatCd_tails 4 inA.driver nameB).of_returns hcd).mount.trans (run_mount hrun)
  have hmounted : st'.mount.initialized = true := by
    rw [hkept]
    rfl
  have hdots : dotDot.chars = [0x2E, 0x2E] := rfl
  have hback := fatCd_up hmounted hdots 4
    (applyWrites ((fatCd 4 inA.driver nameB).exec inA.disk).2 inA.disk)
  exact ⟨ready_blankSystem, hrun, by decide, st', _, _, hcd, hback, hinside.1, rfl, hinside.2,
    rfl⟩

end MasterOS.Fat
