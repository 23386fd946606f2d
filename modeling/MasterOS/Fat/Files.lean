/-
# The store a volume stands for

A volume stands for a store of files: its directories are the directories that can be
reached, by first cluster, and their names are those their live records show, in capitals.
A record stands for the bytes along its chain, or for the directory it heads.

What moves on the volume moves in the store, and nothing else does.
-/

import MasterOS.Fat.Contents
import MasterOS.Fat.Moves
import MasterOS.Fat.UniqueNames
import MasterOS.Math.Store

namespace MasterOS.Fat

open MasterOS.Device MasterOS.Device.Prog MasterOS.Math

/-! ## Names -/

/-- A name as the driver compares it. -/
def CString.key (name : CString) : List UInt8 := name.chars.map kToupper

/-- The name a record shows, as the driver compares it. -/
def RawDirEntry.key (e : RawDirEntry) : List UInt8 := (cstr e.shown).map kToupper

theorem RawDirEntry.matches_iff_key (e : RawDirEntry) (name : CString) :
    e.matches name = true ↔ e.key = name.key := e.matches_iff name

theorem sameName_iff_key (e e' : RawDirEntry) : SameName e.shown e'.shown ↔ e.key = e'.key :=
  kStrcmpNocase_eq_zero_iff _ _

/-- A name can be stored whole. -/
def Plain (name : CString) : Prop := Storable name ∧ Fits83 name

theorem Plain.key_eq {name : CString} (h : Plain name) {e : RawDirEntry}
    (hbase : e.name = (split83 name).1) (hext : e.ext = (split83 name).2) : e.key = name.key :=
  (e.matches_iff_key name).mp ((matches_stored_iff h.1 hbase hext).mpr h.2)

theorem Plain.sameName_iff {name : CString} (h : Plain name) (e : RawDirEntry) :
    SameName e.shown (storedName name) ↔ e.key = name.key := by
  rw [SameName, kStrcmpNocase_eq_zero_iff]
  have hstored := (matches_split83_iff h.1.noSpace).mpr h.2
  exact ⟨fun hsame => hsame.trans hstored, fun hsame => hsame.trans hstored.symm⟩

/-! ## Records and stores -/

/-- Directories by first cluster, names in capitals, files of bytes. -/
abbrev Files : Type := Store ℕ (List UInt8) UInt8

/-- The first bytes of a buffer. -/
def bytesOf (data : ℕ → UInt8) (size : ℕ) : List UInt8 := (List.range size).map data

@[simp] theorem length_bytesOf (data : ℕ → UInt8) (size : ℕ) : (bytesOf data size).length = size := by
  simp [bytesOf]

theorem getElem?_bytesOf (data : ℕ → UInt8) {size i : ℕ} (hi : i < size) :
    (bytesOf data size)[i]? = some (data i) := by
  simp [bytesOf, hi]

/-- What a record stands for: the bytes along its chain, or the directory it heads. -/
def StandsFor (m : Mount) (d : Disk) (e : RawDirEntry) : Node ℕ UInt8 → Prop
  | .file content => e.isDir = false ∧ e.fileSize.toNat = content.length ∧
      ∃ l, Owns m d e l ∧ ∀ i < content.length, chainByte m d l i = content[i]?
  | .dir id => e.isDir = true ∧ e.firstCluster.toNat = id

/-- Every reached directory has the names its live records show, and no others. -/
structure Shows (m : Mount) (d : Disk) (tree : ℕ → List UInt8 → Option (Node ℕ UInt8)) : Prop where
  node : ∀ dirc n loc, Reach m d dirc → LiveAt m d dirc n loc →
    ∃ node, tree dirc (entryAt d loc).key = some node ∧ StandsFor m d (entryAt d loc) node
  entry : ∀ dirc name node, Reach m d dirc → tree dirc name = some node →
    ∃ n loc, LiveAt m d dirc n loc ∧ (entryAt d loc).key = name

/-- A system between two calls, and the store it stands for. -/
structure Stands (s : System) (F : Files) : Prop where
  ready : Ready s.driver s.disk
  unique : UniqueNames s.driver.mount s.disk
  root : F.root = 0
  cwd : F.cwd = s.driver.currentDirCluster
  shows : Shows s.driver.mount s.disk F.tree

/-- The bytes along a chain are those of its sectors. -/
theorem chainByte_congr {m : Mount} (hspc : 1 ≤ m.spc) {d d' : Disk} {l : List ℕ}
    (hsame : ∀ c ∈ l, ∀ k < m.spc, d' (m.clusterLba c k) = d (m.clusterLba c k)) (i : ℕ) :
    chainByte m d' l i = chainByte m d l i := by
  rw [chainByte, chainByte]
  cases hcluster : l[i / (512 * m.spc)]? with
  | none => rfl
  | some c =>
      have hlt : i / 512 % m.spc < m.spc := Nat.mod_lt _ hspc
      simp only [Option.map_some]
      rw [hsame c (List.mem_of_getElem? hcluster) _ hlt]

/-- An entry that is kept stands for what it stood for. -/
theorem StandsFor.keeps {m : Mount} (hspc : 1 ≤ m.spc) {d d' : Disk} {loc : Loc}
    {node : Node ℕ UInt8} (h : StandsFor m d (entryAt d loc) node) (hkeeps : Keeps m d d' loc) :
    StandsFor m d' (entryAt d' loc) node := by
  obtain ⟨hentry, hclusters⟩ := hkeeps
  cases node with
  | dir id =>
      rw [hentry]
      exact h
  | file content =>
      obtain ⟨hfile, hsize, l, howns, hbytes⟩ := h
      obtain ⟨howns', -, hdata⟩ := hclusters l howns
      refine ⟨by rw [hentry]; exact hfile, by rw [hentry]; exact hsize, l, howns', fun i hi => ?_⟩
      rw [chainByte_congr hspc (hdata hfile), hbytes i hi]

/-- A record stands for one thing. -/
theorem StandsFor.unique {m : Mount} {d : Disk} {e : RawDirEntry} {node node' : Node ℕ UInt8}
    (h : StandsFor m d e node) (h' : StandsFor m d e node') : node = node' := by
  cases node with
  | dir id =>
      cases node' with
      | dir id' => rw [← h.2, ← h'.2]
      | file content => exact absurd (h.1.symm.trans h'.1) (by decide)
  | file content =>
      cases node' with
      | dir id => exact absurd (h.1.symm.trans h'.1) (by decide)
      | file content' =>
          obtain ⟨-, hsize, l, howns, hbytes⟩ := h
          obtain ⟨-, hsize', l', howns', hbytes'⟩ := h'
          obtain rfl := howns.unique howns'
          have hlen : content.length = content'.length := hsize.symm.trans hsize'
          congr 1
          refine List.ext_getElem? fun i => ?_
          by_cases hi : i < content.length
          · rw [← hbytes i hi, ← hbytes' i (hlen ▸ hi)]
          · rw [List.getElem?_eq_none (by omega), List.getElem?_eq_none (by omega)]

/-! ## Moving in the store -/

section Moves

variable {m : Mount} {d d' : Disk} {dirc : ℕ} {gone : Option Loc}
  {put : Option (Loc × RawDirEntry)} {tree tree' : ℕ → List UInt8 → Option (Node ℕ UInt8)}

/-- A tree with the names moved that entries of a directory show. -/
structure TreeMoves (m : Mount) (d d' : Disk) (dirc : ℕ) (gone : Option Loc)
    (put : Option (Loc × RawDirEntry)) (tree tree' : ℕ → List UInt8 → Option (Node ℕ UInt8)) :
    Prop where
  other : ∀ node name, Reach m d node → node ≠ dirc → tree' node name = tree node name
  same : ∀ name, (∀ loc, gone = some loc → name ≠ (entryAt d loc).key) →
    (∀ loc e, put = some (loc, e) → name ≠ e.key) → tree' dirc name = tree dirc name
  went : ∀ loc, gone = some loc → (∀ x e, put = some (x, e) → (entryAt d loc).key ≠ e.key) →
    tree' dirc (entryAt d loc).key = none
  came : ∀ loc e, put = some (loc, e) →
    ∃ node, tree' dirc e.key = some node ∧ StandsFor m d' e node
  fresh : ∀ node, Reach m d' node → ¬ Reach m d node → ∀ name, tree' node name = none

/-- **What moves on the volume moves in the store.** -/
theorem Shows.moves (hs : Sound m d) (hreach : Reach m d dirc) (hunique : UniqueNames m d)
    (hunique' : UniqueNames m d') (h : Shows m d tree) (hmoves : EntryMoves m dirc d d' gone put)
    (htree : TreeMoves m d d' dirc gone put tree tree') :
    Shows m d' tree' := by
  have hspc := hs.valid.spc_pos
  constructor
  case node =>
    intro node n loc hnode hlive
    rcases hmoves.old node n loc hnode hlive with
      ⟨rfl, hput⟩ | ⟨hnode₀, hlive₀, hgone, hput, hkeeps⟩
    · exact htree.came loc _ hput
    · obtain ⟨content, hcontent, hstands⟩ := h.node node n loc hnode₀ hlive₀
      refine ⟨content, ?_, hstands.keeps hspc hkeeps⟩
      rw [hkeeps.1, ← hcontent]
      by_cases hdirc : node = dirc
      · subst hdirc
        -- a name that went or came belongs to another entry, and names are unique
        refine htree.same _ (fun x hx hkey => ?_) fun x e hx hkey => ?_
        · obtain ⟨k, hlivex⟩ := hmoves.went x hx
          have heq := hunique node n k loc x hnode₀ hlive₀ hlivex ((sameName_iff_key _ _).mpr hkey)
          exact hgone (heq ▸ hx)
        · obtain ⟨hentry, k, hlivex⟩ := hmoves.came x e hx
          have heq := hunique' node n k loc x hnode hlive hlivex
            ((sameName_iff_key _ _).mpr (by rw [hkeeps.1, hentry]; exact hkey))
          exact hput e (heq ▸ hx)
      · exact htree.other node _ hnode₀ hdirc
  case entry =>
    intro node name content hnode hcontent
    by_cases hnode₀ : Reach m d node
    · by_cases hdirc : node = dirc
      · subst hdirc
        by_cases hcame : ∃ x e, put = some (x, e) ∧ name = e.key
        · obtain ⟨x, e, hx, rfl⟩ := hcame
          obtain ⟨hentry, k, hlivex⟩ := hmoves.came x e hx
          exact ⟨k, x, hlivex, by rw [hentry]⟩
        · have hcame' : ∀ x e, put = some (x, e) → name ≠ e.key :=
            fun x e hx hkey => hcame ⟨x, e, hx, hkey⟩
          have hwent : ∀ x, gone = some x → name ≠ (entryAt d x).key := by
            rintro x hx rfl
            rw [htree.went x hx hcame'] at hcontent
            cases hcontent
          rw [htree.same name hwent hcame'] at hcontent
          obtain ⟨n, loc, hlive, rfl⟩ := h.entry node name content hnode₀ hcontent
          have hlive' := hmoves.kept node n loc hnode hnode₀ hlive fun hx => hwent loc hx rfl
          refine ⟨n, loc, hlive', ?_⟩
          rcases hmoves.old node n loc hnode hlive' with ⟨-, hput⟩ | ⟨-, -, -, -, hkeeps⟩
          · exact absurd (hmoves.apart node n loc _ hput hlive) fun hx => hwent loc hx rfl
          · rw [hkeeps.1]
      · rw [htree.other node name hnode₀ hdirc] at hcontent
        obtain ⟨n, loc, hlive, rfl⟩ := h.entry node name content hnode₀ hcontent
        have hgone : gone ≠ some loc := by
          intro hx
          obtain ⟨k, hlivex⟩ := hmoves.went loc hx
          exact hdirc (hs.slotAt_inj hnode₀ hreach hlive.1 hlivex.1).1
        have hlive' := hmoves.kept node n loc hnode hnode₀ hlive hgone
        refine ⟨n, loc, hlive', ?_⟩
        rcases hmoves.old node n loc hnode hlive' with ⟨hdirc', -⟩ | ⟨-, -, -, -, hkeeps⟩
        · exact absurd hdirc' hdirc
        · rw [hkeeps.1]
    · rw [htree.fresh node hnode hnode₀ name] at hcontent
      cases hcontent

end Moves

/-! ## Finding in the store -/

section Finding

variable {st : Driver} {d : Disk} {F : Files} (hF : Stands ⟨st, d⟩ F) {name : CString}
include hF

/-- A live record of the current directory is what its name stands for. -/
theorem Stands.here {n : ℕ} {loc : Loc} (hlive : LiveAt st.mount d st.currentDirCluster n loc) :
    ∃ node, F.here (entryAt d loc).key = some node ∧ StandsFor st.mount d (entryAt d loc) node := by
  obtain ⟨node, hnode, hstands⟩ := hF.shows.node _ n loc hF.ready.cwd hlive
  exact ⟨node, by rw [Store.here, hF.cwd]; exact hnode, hstands⟩

/-- What a name stands for is a live record of the current directory. -/
theorem Stands.of_here {key : List UInt8} {node : Node ℕ UInt8} (h : F.here key = some node) :
    ∃ n loc, LiveAt st.mount d st.currentDirCluster n loc ∧ (entryAt d loc).key = key ∧
      StandsFor st.mount d (entryAt d loc) node := by
  rw [Store.here, hF.cwd] at h
  obtain ⟨n, loc, hlive, rfl⟩ := hF.shows.entry _ key node hF.ready.cwd h
  obtain ⟨node', hnode', hstands⟩ := hF.here hlive
  rw [Store.here, hF.cwd] at hnode'
  obtain rfl := Option.some.inj (h.symm.trans hnode')
  exact ⟨n, loc, hlive, rfl, hstands⟩

/-- One live record of the current directory has a name. -/
theorem Stands.only {n n' : ℕ} {loc loc' : Loc}
    (hlive : LiveAt st.mount d st.currentDirCluster n loc)
    (hlive' : LiveAt st.mount d st.currentDirCluster n' loc')
    (hkey : (entryAt d loc).key = (entryAt d loc').key) : loc = loc' :=
  hF.unique _ n n' loc loc' hF.ready.cwd hlive hlive' ((sameName_iff_key _ _).mpr hkey)

/-- The file a name finds is what the name stands for. -/
theorem Stands.here_of_file {loc : Loc}
    (h : Named st.mount d st.currentDirCluster (fileVerdict name) loc) :
    ∃ content, F.here name.key = some (.file content) ∧
      StandsFor st.mount d (entryAt d loc) (.file content) := by
  obtain ⟨⟨n, hlive⟩, hfile, hmatches⟩ := h.file
  obtain ⟨node, hnode, hstands⟩ := hF.here hlive
  rw [(RawDirEntry.matches_iff_key _ _).mp hmatches] at hnode
  cases node with
  | file content => exact ⟨content, hnode, hstands⟩
  | dir id => exact absurd (hfile.symm.trans hstands.1) (by decide)

/-- The directory a name finds is what the name stands for. -/
theorem Stands.here_of_dir {loc : Loc}
    (h : Named st.mount d st.currentDirCluster (dirVerdict name) loc) :
    F.here name.key = some (.dir (entryAt d loc).firstCluster.toNat) := by
  obtain ⟨⟨n, hlive⟩, hdir, hmatches⟩ := h.dir hF.ready.wellFormed hF.ready.cwd
  obtain ⟨node, hnode, hstands⟩ := hF.here hlive
  rw [(RawDirEntry.matches_iff_key _ _).mp hmatches] at hnode
  cases node with
  | file content => exact absurd (hdir.symm.trans hstands.1) (by decide)
  | dir id => rw [hnode, hstands.2]

/-- **The file search finds what stands for a file.** -/
theorem Stands.hasFile_iff : F.HasFile name.key ↔
    ∃ loc, Named st.mount d st.currentDirCluster (fileVerdict name) loc := by
  constructor
  · rintro ⟨content, hcontent⟩
    obtain ⟨n, loc, hlive, hkey, hfile, -⟩ := hF.of_here hcontent
    have hcarries : Carries st.mount d st.currentDirCluster name loc :=
      ⟨⟨n, hlive⟩, hfile, (RawDirEntry.matches_iff_key _ _).mpr hkey⟩
    refine ⟨loc, hcarries.firstTake fun x hx => ?_⟩
    obtain ⟨⟨k, hlivex⟩, -, hmatches⟩ := hx
    exact hF.only hlivex hlive (((RawDirEntry.matches_iff_key _ _).mp hmatches).trans hkey.symm)
  · rintro ⟨loc, hnamed⟩
    obtain ⟨content, hcontent, -⟩ := hF.here_of_file hnamed
    exact ⟨content, hcontent⟩

/-- **The directory search finds what stands for a directory.** -/
theorem Stands.hasDir_iff : F.HasDir name.key ↔
    ∃ loc, Named st.mount d st.currentDirCluster (dirVerdict name) loc := by
  constructor
  · rintro ⟨id, hid⟩
    obtain ⟨n, loc, hlive, hkey, hdir, -⟩ := hF.of_here hid
    have hflags := hF.ready.wellFormed.noLabelDir _ n loc hF.ready.cwd hlive.1
    have htake : dirVerdict name (entryAt d loc) = .take :=
      (dirVerdict_eq_take_iff hflags).mpr
        ⟨hlive.2.1, hdir, (RawDirEntry.matches_iff_key _ _).mpr hkey⟩
    obtain ⟨k, x, -, hfirst⟩ := exists_firstTake hlive.1 htake fun j hj x hx hstop =>
      hlive.2.2 j hj x hx ((dirVerdict_eq_stop_iff _ _).mp hstop)
    exact ⟨x, k, hfirst⟩
  · rintro ⟨loc, hnamed⟩
    exact ⟨_, hF.here_of_dir hnamed⟩

/-- The directories below the root of the store are those that can be reached. -/
theorem Stands.reach_iff {node : ℕ} : F.Reach node ↔ Reach st.mount d node := by
  constructor
  · intro h
    induction h with
    | root =>
        rw [hF.root]
        exact .root
    | child _ hbelow ih =>
        obtain ⟨n, loc, hlive, rfl⟩ := hF.shows.entry _ _ _ ih hbelow
        obtain ⟨node', hnode', hstands⟩ := hF.shows.node _ n loc ih hlive
        obtain rfl := Option.some.inj (hbelow.symm.trans hnode')
        exact .child ih hlive (child_eq_some_iff.mpr hstands)
  · intro h
    induction h with
    | root =>
        have hroot : F.Reach F.root := .root
        rw [hF.root] at hroot
        exact hroot
    | @child node below n loc hreach hlive hchild ih =>
        obtain ⟨node', hnode', hstands⟩ := hF.shows.node _ n loc hreach hlive
        obtain ⟨hdir, hfirst⟩ := child_eq_some_iff.mp hchild
        cases node' with
        | file content => exact absurd (hdir.symm.trans hstands.1) (by decide)
        | dir id =>
            obtain rfl : id = below := hstands.2.symm.trans hfirst
            exact .child ih hnode'

/-- A driver with the same volume and the same current directory stands for the same. -/
theorem Stands.of_driver {st' : Driver} (hmount : st'.mount = st.mount)
    (hcwd : st'.currentDirCluster = st.currentDirCluster) : Stands ⟨st', d⟩ F where
  ready := ⟨hmount ▸ hF.ready.wellFormed, by rw [hmount, hcwd]; exact hF.ready.cwd⟩
  unique := by rw [hmount]; exact hF.unique
  root := hF.root
  cwd := hF.cwd.trans hcwd.symm
  shows := by rw [hmount]; exact hF.shows

/-- A move on the volume is followed by one in the store. -/
theorem Stands.moves {st' : Driver} {d' : Disk} {gone : Option Loc}
    {put : Option (Loc × RawDirEntry)} {F' : Files} (hmount : st'.mount = st.mount)
    (hcwd : st'.currentDirCluster = st.currentDirCluster) (hready : Ready st' d')
    (hunique : UniqueNames st.mount d')
    (hmoves : EntryMoves st.mount st.currentDirCluster d d' gone put) (hroot : F'.root = F.root)
    (hhere : F'.cwd = F.cwd)
    (htree : TreeMoves st.mount d d' st.currentDirCluster gone put F.tree F'.tree) :
    Stands ⟨st', d'⟩ F' where
  ready := hready
  unique := hmount.symm ▸ hunique
  root := hroot.trans hF.root
  cwd := (hhere.trans hF.cwd).trans hcwd.symm
  shows := by
    rw [hmount]
    exact hF.shows.moves hF.ready.sound hF.ready.cwd hF.unique hunique hmoves htree

end Finding

end MasterOS.Fat
