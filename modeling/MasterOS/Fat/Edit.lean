/-
# Edits of a volume

An edit changes a volume only at given records and in given clusters: in their table
entries and in their sectors. The writes of every operation are edits. This module
says what an edit leaves alone, and that the three edits the driver makes keep a
volume sound and well formed: taking a record out together with its clusters,
changing the name in a record, and putting a record in over clusters that were free.
-/

import MasterOS.Fat.Ops

namespace MasterOS.Fat

open MasterOS.Device MasterOS.Device.Prog MasterOS.Math

/-- From `d` to `d'` only the records `S` and the clusters `C` may have changed. What
lies before the tables, and the tables' own redundancy, is not spoken of. -/
structure Edit (m : Mount) (d d' : Disk) (S : Loc → Prop) (C : List ℕ) : Prop where
  clusters : ∀ c ∈ C, 2 ≤ c ∧ c < 6146
  table : ∀ c, Loaded m c → c ∉ C → fatAt m d' c = fatAt m d c
  sector : ∀ lba, m.rootStart ≤ lba → (∀ i, ¬ S (lba, i)) →
    (∀ c ∈ C, ∀ k < m.spc, lba ≠ m.clusterLba c k) → d' lba = d lba
  record : ∀ lba i, m.rootStart ≤ lba → i < 16 → ¬ S (lba, i) →
    (∀ c ∈ C, ∀ k < m.spc, lba ≠ m.clusterLba c k) → (d' lba).entry i = (d lba).entry i

namespace Edit

variable {m : Mount} {d d' d'' : Disk} {S S' : Loc → Prop} {C C' : List ℕ}

theorem refl (m : Mount) (d : Disk) : Edit m d d S [] where
  clusters c hc := by simp at hc
  table _ _ _ := rfl
  sector _ _ _ _ := rfl
  record _ _ _ _ _ _ := rfl

theorem trans (h : Edit m d d' S C) (h' : Edit m d' d'' S' C') :
    Edit m d d'' (fun loc => S loc ∨ S' loc) (C ++ C') where
  clusters c hc := (List.mem_append.mp hc).elim (h.clusters c) (h'.clusters c)
  table c hload hc := by
    rw [List.mem_append, not_or] at hc
    rw [h'.table c hload hc.2, h.table c hload hc.1]
  sector lba hroot hS hC := by
    rw [h'.sector lba hroot (fun i hi => hS i (Or.inr hi)) fun c hc =>
        hC c (List.mem_append_right _ hc),
      h.sector lba hroot (fun i hi => hS i (Or.inl hi)) fun c hc =>
        hC c (List.mem_append_left _ hc)]
  record lba i hroot hi hS hC := by
    rw [h'.record lba i hroot hi (fun h => hS (Or.inr h)) fun c hc =>
        hC c (List.mem_append_right _ hc),
      h.record lba i hroot hi (fun h => hS (Or.inl h)) fun c hc =>
        hC c (List.mem_append_left _ hc)]

/-- An edit of less is an edit of more. -/
theorem mono (h : Edit m d d' S C) (hS : ∀ loc, S loc → S' loc) (hsub : C ⊆ C')
    (hC' : ∀ c ∈ C', 2 ≤ c ∧ c < 6146) : Edit m d d' S' C' where
  clusters := hC'
  table c hload hc := h.table c hload fun hmem => hc (hsub hmem)
  sector lba hroot hnot hC :=
    h.sector lba hroot (fun i hi => hnot i (hS _ hi)) fun c hc => hC c (hsub hc)
  record lba i hroot hi hnot hC :=
    h.record lba i hroot hi (fun h => hnot (hS _ h)) fun c hc => hC c (hsub hc)

/-- Writes to the tables and to clusters of `C` are an edit when they keep the other
entries of the table. -/
theorem of_writes {writes : List (ℕ × Sector)}
    (hclusters : ∀ c ∈ C, 2 ≤ c ∧ c < 6146) (hwrites : ∀ w ∈ writes, BelowOrIn m C w)
    (htable : ∀ c, Loaded m c → c ∉ C → fatAt m (applyWrites writes d) c = fatAt m d c) :
    Edit m d (applyWrites writes d) S C := by
  have hsector (lba : ℕ) (hroot : m.rootStart ≤ lba)
      (hC : ∀ c ∈ C, ∀ k < m.spc, lba ≠ m.clusterLba c k) : applyWrites writes d lba = d lba := by
    refine applyWrites_of_forall_ne fun w hw heq => ?_
    rcases hwrites w hw with hlow | ⟨c, hc, k, hk, hck⟩
    · omega
    · exact hC c hc k hk (heq.symm.trans hck)
  exact ⟨hclusters, htable, fun lba hroot _ hC => hsector lba hroot hC,
    fun lba i hroot _ _ hC => by rw [hsector lba hroot hC]⟩

/-- Writing one directory sector with one record replaced is an edit of that record. -/
theorem of_slotWrite (hv : m.Valid) {loc : Loc} (hroot : m.rootStart ≤ loc.1)
    (hsame : d' loc.1 = d loc.1) (e : RawDirEntry) :
    Edit m d' (applyWrites [slotWrite d loc e] d') (fun x => x = loc) [] := by
  have hother (lba : ℕ) (hne : lba ≠ loc.1) :
      applyWrites [slotWrite d loc e] d' lba = d' lba := by
    refine applyWrites_of_forall_ne fun w hw heq => ?_
    rw [List.mem_singleton] at hw
    exact hne (heq.symm.trans (by rw [hw]; rfl))
  refine ⟨fun c hc => by simp at hc, fun c hload _ => ?_, fun lba _ hS _ => ?_,
    fun lba i _ hi hS _ => ?_⟩
  · refine fatAt_congr hv (fun lba _ hlt => hother lba ?_) hload
    omega
  · refine hother lba fun heq => hS loc.2 ?_
    rw [heq]
  · by_cases hlba : lba = loc.1
    · have hi' : i ≠ loc.2 := fun hi => hS (by rw [hlba, hi])
      rw [hlba, applyWrites_cons, applyWrites_nil, slotWrite, Function.update_self,
        Sector.entry_setEntry_of_ne _ _ hi', hsame]
    · rw [hother lba hlba]

/-! ## What an edit leaves alone -/

section Frame

variable (hv : m.Valid) (h : Edit m d d' S C)
include h

/-- An entry whose clusters are not edited owns the same clusters. -/
theorem owns {e : RawDirEntry} {l : List ℕ} (howns : Owns m d e l) (hdis : List.Disjoint l C) :
    Owns m d' e l :=
  howns.congr fun x hx => h.table x (howns.dataCluster hx).2.2 (hdis hx)

theorem chainOf {c : ℕ} {l : List ℕ} (hl : ChainOf m d c l) (hdis : List.Disjoint l C) :
    ChainOf m d' c l :=
  hl.congr fun x hx => h.table x (hl.ok_of_mem hx).2.2 (hdis hx)

variable {dirc : ℕ} (hdir : DirOk m (fatAt m d) dirc)
  (hdis : ∀ ld, ChainOf m d dirc ld → List.Disjoint ld C)
include hdir hdis

theorem dirKept : DirKept m (fatAt m d) (fatAt m d') dirc :=
  dirKept_of_disjoint hdir hdis fun c hc hcl => h.table c hc.2.2 hcl

/-- A directory whose chain is not edited keeps its slots. -/
theorem slotAt_eq (n : ℕ) : slotAt m (fatAt m d') dirc n = slotAt m (fatAt m d) dirc n :=
  (h.dirKept hdir hdis).slotAt n

include hv

/-- A directory whose chain is not edited keeps the records that are not edited. -/
theorem entryAt_eq {n : ℕ} {loc : Loc} (hloc : slotAt m (fatAt m d) dirc n = some loc)
    (hS : ¬ S loc) : entryAt d' loc = entryAt d loc := by
  obtain ⟨hlba, hi⟩ := slotAt_eq_some_iff.mp hloc
  refine h.record loc.1 loc.2 (dirLba_bounds hv.usable hdir hlba).1 (by omega) hS fun c hc k hk => ?_
  obtain ⟨h2, hlt⟩ := h.clusters c hc
  exact dirLba_ne_clusterLba hv hdir hlba (fun ld hld hmem => hdis ld hld hmem hc) h2 hlt hk

end Frame

end Edit

/-- The record written is the record read. -/
theorem entryAt_applyWrites_slotWrite {d d' : Disk} {loc : Loc} (e : RawDirEntry)
    (hi : loc.2 < 16) : entryAt (applyWrites [slotWrite d loc e] d') loc = e := by
  rw [entryAt, applyWrites_cons, applyWrites_nil, slotWrite, Function.update_self,
    Sector.entry_setEntry_self _ _ hi]

theorem forest_root (m : Mount) (d d' : Disk) : (forest m d').root = (forest m d).root := rfl

/-! ## Taking a record out -/

section Remove

variable {m : Mount} {d d' : Disk} (hs : Sound m d) {dirc n : ℕ} {loc : Loc} {l C : List ℕ}
  (hreach : Reach m d dirc) (hlive : LiveAt m d dirc n loc) (howns : Owns m d (entryAt d loc) l)
  (hedit : Edit m d d' (fun x => x = loc) C) (hsub : C ⊆ l)
  (hgone : (entryAt d' loc).live = false) (hnotEnd : (entryAt d' loc).isEnd = false)

include hs hreach hlive howns in
/-- The chain of a directory that keeps an owner avoids the clusters of the record
that goes. -/
theorem kept_disjoint {node : ℕ} (hkept : (forest m d).Kept entryKind loc node) {ld : List ℕ}
    (hld : ChainOf m d node ld) : List.Disjoint ld l := by
  rcases hkept.2 with hroot | ⟨loc', hne, hlive', hchild⟩
  · have := hld.ok_head.1
    rw [show node = 0 from hroot] at this
    omega
  · obtain ⟨-, hfirst⟩ := child_eq_some_iff.mp hchild
    exact hs.disjoint loc' loc ld l hlive' (hlive.live hreach) hne
      (Or.inr ((show (entryAt d loc').firstCluster.toNat = node from hfirst) ▸ hld)) howns

include hs hreach hlive howns hedit hsub

/-- A directory that keeps an owner keeps its slots. -/
theorem kept_slot (node : ℕ) (hkept : (forest m d).Kept entryKind loc node) (k : ℕ) :
    (forest m d').slot node k = (forest m d).slot node k :=
  hedit.slotAt_eq (hs.dirOk hkept.1) (fun _ hld _ hx hxC =>
    kept_disjoint hs hreach hlive howns hkept hld hx (hsub hxC)) k

/-- A directory that keeps an owner keeps its other records. -/
theorem kept_entry (node k : ℕ) (loc' : Loc) (hkept : (forest m d).Kept entryKind loc node)
    (hloc' : (forest m d).slot node k = some loc') (hne : loc' ≠ loc) :
    (forest m d').entry loc' = (forest m d).entry loc' :=
  hedit.entryAt_eq hs.valid (hs.dirOk hkept.1) (fun _ hld _ hx hxC =>
    kept_disjoint hs hreach hlive howns hkept hld hx (hsub hxC)) hloc' hne

include hgone

/-- A directory still reached has an owner other than the record that goes. -/
theorem reach_of_removal {node : ℕ} (h : Reach m d' node) :
    (forest m d).Kept entryKind loc node :=
  Forest.reach_of_remove (forest_root m d d') (kept_slot hs hreach hlive howns hedit hsub)
    (kept_entry hs hreach hlive howns hedit hsub)
    (show ¬ (entryAt d' loc).live = true by simp [hgone])
    (entryKind.not_isEnd_of_live _ hlive.2.1) h

/-- What is live afterwards was live before, under the same record. -/
theorem live_of_removal {loc' : Loc} (h : Live m d' loc') :
    Live m d loc' ∧ loc' ≠ loc ∧ entryAt d' loc' = entryAt d loc' :=
  Forest.live_of_remove (forest_root m d d') (kept_slot hs hreach hlive howns hedit hsub)
    (kept_entry hs hreach hlive howns hedit hsub)
    (show ¬ (entryAt d' loc).live = true by simp [hgone])
    (entryKind.not_isEnd_of_live _ hlive.2.1) h

/-- **Taking a record out with its clusters keeps a volume sound.** -/
theorem Sound.removal : Sound m d' := by
  have howns' {loc' : Loc} (h : Live m d' loc') : ∃ l', Owns m d (entryAt d loc') l' ∧
      Owns m d' (entryAt d' loc') l' := by
    obtain ⟨hlive₀, hne, hsame⟩ := live_of_removal hs hreach hlive howns hedit hsub hgone h
    obtain ⟨l', hl'⟩ := hs.owns loc' hlive₀
    have hdis := hs.disjoint loc' loc l' l hlive₀ (hlive.live hreach) hne hl' howns
    exact ⟨l', hl', hsame ▸ hedit.owns hl' fun x hx hxC => hdis hx (hsub hxC)⟩
  refine ⟨hs.valid, fun loc' h => ?_, fun loc₁ loc₂ l₁ l₂ h₁ h₂ hne hl₁ hl₂ => ?_⟩
  · obtain ⟨l', -, hl'⟩ := howns' h
    exact ⟨l', hl'⟩
  · obtain ⟨l₁', hbefore₁, hafter₁⟩ := howns' h₁
    obtain ⟨l₂', hbefore₂, hafter₂⟩ := howns' h₂
    obtain ⟨hlive₁, -, -⟩ := live_of_removal hs hreach hlive howns hedit hsub hgone h₁
    obtain ⟨hlive₂, -, -⟩ := live_of_removal hs hreach hlive howns hedit hsub hgone h₂
    rw [hl₁.unique hafter₁, hl₂.unique hafter₂]
    exact hs.disjoint loc₁ loc₂ l₁' l₂' hlive₁ hlive₂ hne hbefore₁ hbefore₂

omit hgone in
include hnotEnd in
/-- The directory the record was in is still reached. -/
theorem reach_home_of_removal : Reach m d' dirc :=
  Forest.reach_home (forest_root m d d') (kept_slot hs hreach hlive howns hedit hsub)
    (kept_entry hs hreach hlive howns hedit hsub)
    (show ¬ (entryAt d' loc).isEnd = true by simp [hnotEnd]) hreach
    fun node k hnode hlive' => (hs.slotAt_inj hnode hreach hlive'.1 hlive.1).1

omit hgone in
include hnotEnd in
/-- Taking out a file, or a directory that holds nothing live, leaves every other entry
live. -/
theorem live_after_removal
    (hempty : (entryAt d loc).isDir = true →
      ∀ k loc', ¬ LiveAt m d (entryAt d loc).firstCluster.toNat k loc')
    {loc' : Loc} (h : Live m d loc') (hne : loc' ≠ loc) : Live m d' loc' := by
  refine Forest.live_after_remove (forest_root m d d') (kept_slot hs hreach hlive howns hedit hsub)
    (kept_entry hs hreach hlive howns hedit hsub)
    (show ¬ (entryAt d' loc).isEnd = true by simp [hnotEnd]) (fun below hchild k loc' => ?_) h hne
  obtain ⟨hdir, rfl⟩ := child_eq_some_iff.mp hchild
  exact hempty hdir k loc'

end Remove

section RemoveWellFormed

variable {m : Mount} {d d' : Disk} (hw : WellFormed m d) {dirc n : ℕ} {loc : Loc} {l C : List ℕ}
  (hreach : Reach m d dirc) (hlive : LiveAt m d dirc n loc) (howns : Owns m d (entryAt d loc) l)
  (hedit : Edit m d d' (fun x => x = loc) C) (hsub : C ⊆ l)
  (hgone : (entryAt d' loc).live = false) (hnotEnd : (entryAt d' loc).isEnd = false)
  (hflags : ¬ ((entryAt d' loc).isLabel = true ∧ (entryAt d' loc).isDir = true))
  (hcopies : Copies m d')
include hw hreach hlive howns hedit hsub hgone hnotEnd hflags hcopies

/-- **Taking a record out with its clusters keeps a volume well formed.** -/
theorem WellFormed.removal : WellFormed m d' := by
  have hs := hw.toSound
  have hkept {node : ℕ} (h : Reach m d' node) :=
    reach_of_removal hs hreach hlive howns hedit hsub hgone h
  have hslot := kept_slot hs hreach hlive howns hedit hsub
  have hentry := kept_entry hs hreach hlive howns hedit hsub
  refine ⟨hs.removal hreach hlive howns hedit hsub hgone, hcopies,
    fun node k n' loc₁ loc₂ hnode hkn hloc₁ hloc₂ hend => ?_, fun node k loc' hnode hloc' => ?_⟩
  · have hloc₁' : slotAt m (fatAt m d) node k = some loc₁ :=
      (hslot node (hkept hnode) k).symm.trans hloc₁
    have hloc₂' : slotAt m (fatAt m d) node n' = some loc₂ :=
      (hslot node (hkept hnode) n').symm.trans hloc₂
    have hne₁ : loc₁ ≠ loc := fun heq => by
      rw [heq, hnotEnd] at hend
      exact absurd hend (by decide)
    have hend₁ : (entryAt d loc₁).isEnd = true := by
      rw [← show entryAt d' loc₁ = entryAt d loc₁ from
        hentry node k loc₁ (hkept hnode) hloc₁' hne₁]
      exact hend
    have hend₂ := hw.tail node k n' loc₁ loc₂ (hkept hnode).1 hkn hloc₁' hloc₂' hend₁
    have hne₂ : loc₂ ≠ loc := fun heq =>
      entryKind.not_isEnd_of_live _ hlive.2.1 (show (entryAt d loc).isEnd = true from heq ▸ hend₂)
    rw [show entryAt d' loc₂ = entryAt d loc₂ from
      hentry node n' loc₂ (hkept hnode) hloc₂' hne₂]
    exact hend₂
  · by_cases hne : loc' = loc
    · rw [hne]
      exact hflags
    · have hloc : slotAt m (fatAt m d) node k = some loc' :=
        (hslot node (hkept hnode) k).symm.trans hloc'
      rw [show entryAt d' loc' = entryAt d loc' from hentry node k loc' (hkept hnode) hloc hne]
      exact hw.noLabelDir node k loc' (hkept hnode).1 hloc

end RemoveWellFormed

/-! ## Changing a name -/

/-- Two records that stand for the same file or directory under different names. -/
structure SameBody (e e' : RawDirEntry) : Prop where
  isEnd : e'.isEnd = e.isEnd
  live : e'.live = e.live
  isLabel : e'.isLabel = e.isLabel
  isDir : e'.isDir = e.isDir
  firstCluster : e'.firstCluster = e.firstCluster

theorem SameBody.refl (e : RawDirEntry) : SameBody e e := ⟨rfl, rfl, rfl, rfl, rfl⟩

theorem SameBody.owns {e e' : RawDirEntry} (h : SameBody e e') {m : Mount} {d : Disk} {l : List ℕ} :
    Owns m d e' l ↔ Owns m d e l := by
  rw [Owns, Owns, h.isDir, h.firstCluster]

/-- The clusters of a list are free on the disk, as far as they are data clusters. -/
def Unused (m : Mount) (d : Disk) (C : List ℕ) : Prop :=
  ∀ x ∈ C, DataCluster m x → fatAt m d x = 0

theorem Unused.disjoint_chain {m : Mount} {d : Disk} {C : List ℕ} (h : Unused m d C) {c : ℕ}
    {l : List ℕ} (hl : ChainOf m d c l) : List.Disjoint l C := fun x hx hxC =>
  fatAt_ne_zero_of_mem hl hx (h x hxC (hl.ok_of_mem hx))

theorem Unused.disjoint_owns {m : Mount} {d : Disk} {C : List ℕ} (h : Unused m d C)
    {e : RawDirEntry} {l : List ℕ} (hl : Owns m d e l) : List.Disjoint l C := fun x hx hxC =>
  hl.fatAt_ne_zero hx (h x hxC (hl.dataCluster hx))

section Rename

variable {m : Mount} {d d' : Disk} (hs : Sound m d) {S : Loc → Prop} {C : List ℕ}
  (hedit : Edit m d d' S C) (hunused : Unused m d C)
  (hbody : ∀ loc, S loc → SameBody (entryAt d loc) (entryAt d' loc))
include hs hedit hunused

theorem rename_slot (node : ℕ) (h : Reach m d node) (k : ℕ) :
    (forest m d').slot node k = (forest m d).slot node k :=
  hedit.slotAt_eq (hs.dirOk h) (fun _ hld => hunused.disjoint_chain hld) k

include hbody

theorem rename_body {node k : ℕ} {loc : Loc} (h : Reach m d node)
    (hloc : slotAt m (fatAt m d) node k = some loc) :
    SameBody (entryAt d loc) (entryAt d' loc) := by
  by_cases hS : S loc
  · exact hbody loc hS
  · rw [hedit.entryAt_eq hs.valid (hs.dirOk h) (fun _ hld => hunused.disjoint_chain hld) hloc hS]
    exact .refl _

theorem rename_kind (node k : ℕ) (loc : Loc) (h : Reach m d node)
    (hloc : (forest m d).slot node k = some loc) :
    (entryKind.isEnd ((forest m d').entry loc) ↔ entryKind.isEnd ((forest m d).entry loc)) ∧
    (entryKind.live ((forest m d').entry loc) ↔ entryKind.live ((forest m d).entry loc)) ∧
    (entryKind.live ((forest m d).entry loc) →
      entryKind.child ((forest m d').entry loc) = entryKind.child ((forest m d).entry loc)) := by
  have hsame := rename_body hs hedit hunused hbody h hloc
  simp only [entryKind, forest, hsame.isEnd, hsame.live, hsame.isDir, hsame.firstCluster,
    implies_true, and_self]

theorem reach_iff_of_rename {node : ℕ} : Reach m d' node ↔ Reach m d node :=
  Forest.reach_iff_of_kind (forest_root m d d') (rename_slot hs hedit hunused)
    (rename_kind hs hedit hunused hbody)

theorem liveAt_iff_of_rename {node k : ℕ} {loc : Loc} (h : Reach m d node) :
    LiveAt m d' node k loc ↔ LiveAt m d node k loc :=
  Forest.liveAt_iff_of_kind (rename_slot hs hedit hunused) (rename_kind hs hedit hunused hbody) h

theorem live_iff_of_rename {loc : Loc} : Live m d' loc ↔ Live m d loc :=
  Forest.live_iff_of_kind (forest_root m d d') (rename_slot hs hedit hunused)
    (rename_kind hs hedit hunused hbody)

theorem owns_iff_of_rename {loc : Loc} {l : List ℕ} (h : Live m d loc) :
    Owns m d' (entryAt d' loc) l ↔ Owns m d (entryAt d loc) l := by
  obtain ⟨node, k, hnode, hlive⟩ := h
  obtain ⟨l₀, hl₀⟩ := hs.owns loc (hlive.live hnode)
  have hl₀' : Owns m d' (entryAt d' loc) l₀ :=
    (rename_body hs hedit hunused hbody hnode hlive.1).owns.mpr
      (hedit.owns hl₀ (hunused.disjoint_owns hl₀))
  constructor
  · intro hl
    rw [hl.unique hl₀']
    exact hl₀
  · intro hl
    rw [hl.unique hl₀]
    exact hl₀'

theorem Sound.rename : Sound m d' := by
  refine ⟨hs.valid, fun loc h => ?_, fun loc₁ loc₂ l₁ l₂ h₁ h₂ hne hl₁ hl₂ => ?_⟩
  · have hlive := (live_iff_of_rename hs hedit hunused hbody).mp h
    obtain ⟨l, hl⟩ := hs.owns loc hlive
    exact ⟨l, (owns_iff_of_rename hs hedit hunused hbody hlive).mpr hl⟩
  · have hlive₁ := (live_iff_of_rename hs hedit hunused hbody).mp h₁
    have hlive₂ := (live_iff_of_rename hs hedit hunused hbody).mp h₂
    exact hs.disjoint loc₁ loc₂ l₁ l₂ hlive₁ hlive₂ hne
      ((owns_iff_of_rename hs hedit hunused hbody hlive₁).mp hl₁)
      ((owns_iff_of_rename hs hedit hunused hbody hlive₂).mp hl₂)

omit hs in
/-- **Changing names and taking free clusters keeps a volume well formed.** -/
theorem WellFormed.rename (hw : WellFormed m d) (hcopies : Copies m d') : WellFormed m d' := by
  have hs := hw.toSound
  refine ⟨hs.rename hedit hunused hbody, hcopies,
    fun node k n loc₁ loc₂ hnode hkn hloc₁ hloc₂ hend => ?_, fun node k loc hnode hloc => ?_⟩
  · have hnode' := (reach_iff_of_rename hs hedit hunused hbody).mp hnode
    have hloc₁' : slotAt m (fatAt m d) node k = some loc₁ :=
      (rename_slot hs hedit hunused node hnode' k).symm.trans hloc₁
    have hloc₂' : slotAt m (fatAt m d) node n = some loc₂ :=
      (rename_slot hs hedit hunused node hnode' n).symm.trans hloc₂
    rw [(rename_body hs hedit hunused hbody hnode' hloc₁').isEnd] at hend
    rw [(rename_body hs hedit hunused hbody hnode' hloc₂').isEnd]
    exact hw.tail node k n loc₁ loc₂ hnode' hkn hloc₁' hloc₂' hend
  · have hnode' := (reach_iff_of_rename hs hedit hunused hbody).mp hnode
    have hloc' : slotAt m (fatAt m d) node k = some loc :=
      (rename_slot hs hedit hunused node hnode' k).symm.trans hloc
    rw [(rename_body hs hedit hunused hbody hnode' hloc').isLabel,
      (rename_body hs hedit hunused hbody hnode' hloc').isDir]
    exact hw.noLabelDir node k loc hnode' hloc'

end Rename

/-! ## Putting a record in -/

section Insert

variable {m : Mount} {d d' : Disk} (hw : WellFormed m d) {dirc n : ℕ} {loc : Loc} {C : List ℕ}
  (hreach : Reach m d dirc) (hloc : slotAt m (fatAt m d) dirc n = some loc)
  (hbefore : ∀ k < n, ∀ loc', slotAt m (fatAt m d) dirc k = some loc' →
    (entryAt d loc').isEnd = false)
  (hedit : Edit m d d' (fun x => x = loc) C) (hunused : Unused m d C)
  (hnotEnd : (entryAt d' loc).isEnd = false)
  (hbelow : (entryAt d' loc).live = true → (entryAt d' loc).isDir = true →
    ∀ k loc', ¬ LiveAt m d' (entryAt d' loc).firstCluster.toNat k loc')
  (howns : (entryAt d' loc).live = true → ∃ l, l ⊆ C ∧ Owns m d' (entryAt d' loc) l)

theorem insert_slot (hs : Sound m d) (hedit : Edit m d d' (fun x => x = loc) C)
    (hunused : Unused m d C) (node : ℕ) (h : Reach m d node) (k : ℕ) :
    (forest m d').slot node k = (forest m d).slot node k :=
  hedit.slotAt_eq (hs.dirOk h) (fun _ hld => hunused.disjoint_chain hld) k

theorem insert_entry (hs : Sound m d) (hedit : Edit m d d' (fun x => x = loc) C)
    (hunused : Unused m d C) (node k : ℕ) (loc' : Loc) (h : Reach m d node)
    (hloc' : (forest m d).slot node k = some loc') (hne : loc' ≠ loc) :
    (forest m d').entry loc' = (forest m d).entry loc' :=
  hedit.entryAt_eq hs.valid (hs.dirOk h) (fun _ hld => hunused.disjoint_chain hld) hloc' hne

theorem WellFormed.forest_tail (hw : WellFormed m d) (node k n : ℕ) (loc loc' : Loc)
    (hnode : (forest m d).Reach entryKind node) (hkn : k < n)
    (hloc : (forest m d).slot node k = some loc) (hloc' : (forest m d).slot node n = some loc') :
    entryKind.isEnd ((forest m d).entry loc) → entryKind.isEnd ((forest m d).entry loc') :=
  hw.tail node k n loc loc' hnode hkn hloc hloc'

include hbelow in
/-- Nothing is live below the record that is put in. -/
theorem below_of_insertion (below : ℕ) (hlive : entryKind.live ((forest m d').entry loc))
    (hchild : entryKind.child ((forest m d').entry loc) = some below) (k : ℕ) (loc' : Loc) :
    ¬ (forest m d').LiveAt entryKind below k loc' := by
  obtain ⟨hdir, rfl⟩ := child_eq_some_iff.mp hchild
  exact hbelow hlive hdir k loc'

include hedit hunused

/-- Directories reached before an insertion are still reached. -/
theorem reach_after_insertion (hs : Sound m d) (hfree : (entryAt d loc).live = false)
    (hnotEnd : (entryAt d' loc).isEnd = false) {node : ℕ} (h : Reach m d node) :
    Reach m d' node :=
  Forest.reach_after_insert (forest_root m d d') (insert_slot hs hedit hunused)
    (insert_entry hs hedit hunused) (show ¬ (entryAt d loc).live = true by simp [hfree])
    (show ¬ (entryAt d' loc).isEnd = true by simp [hnotEnd]) h

include hw hbelow

/-- A directory reached after an insertion was reached before, or is the new one. -/
theorem reach_of_insertion {node : ℕ} (h : Reach m d' node) :
    Reach m d node ∨ (entryAt d' loc).live = true ∧ (entryAt d' loc).isDir = true ∧
      (entryAt d' loc).firstCluster.toNat = node := by
  rcases Forest.reach_of_insert (forest_root m d d') (insert_slot hw.toSound hedit hunused)
    (insert_entry hw.toSound hedit hunused) hw.forest_tail
    (below_of_insertion hbelow) h with hreach | ⟨hlive, hchild⟩
  · exact Or.inl hreach
  · exact Or.inr ⟨hlive, child_eq_some_iff.mp hchild⟩

/-- What is live after an insertion is the new entry, or was live under the same
record. -/
theorem live_of_insertion {loc' : Loc} (h : Live m d' loc') :
    loc' = loc ∨ loc' ≠ loc ∧ Live m d loc' ∧ entryAt d' loc' = entryAt d loc' :=
  Forest.live_of_insert (forest_root m d d') (insert_slot hw.toSound hedit hunused)
    (insert_entry hw.toSound hedit hunused) hw.forest_tail
    (below_of_insertion hbelow) h

include howns

/-- Putting a record in over clusters that were free keeps a volume sound. -/
theorem WellFormed.sound_insertion : Sound m d' := by
  have hs := hw.toSound
  have hold {loc' : Loc} (hlive : Live m d loc') (hsame : entryAt d' loc' = entryAt d loc') :
      ∃ l, Owns m d (entryAt d loc') l ∧ Owns m d' (entryAt d' loc') l := by
    obtain ⟨l, hl⟩ := hs.owns loc' hlive
    exact ⟨l, hl, hsame ▸ hedit.owns hl (hunused.disjoint_owns hl)⟩
  -- the new entry's clusters were free, so no old entry has one of them
  have hnew {loc' : Loc} {l l' : List ℕ} (hlive₀ : Live m d' loc) (hlive : Live m d loc')
      (hsame : entryAt d' loc' = entryAt d loc') (hl : Owns m d' (entryAt d' loc) l)
      (hl' : Owns m d' (entryAt d' loc') l') : List.Disjoint l l' := by
    obtain ⟨_, _, _, hlive₁⟩ := hlive₀
    obtain ⟨l₀, hsub, hl₀⟩ := howns hlive₁.2.1
    obtain ⟨l₁, hl₁, hl₁'⟩ := hold hlive hsame
    rw [hl.unique hl₀, hl'.unique hl₁']
    exact fun x hx hx' => hunused.disjoint_owns hl₁ hx' (hsub hx)
  refine ⟨hs.valid, fun loc' h => ?_, fun loc₁ loc₂ l₁ l₂ h₁ h₂ hne hl₁ hl₂ => ?_⟩
  · rcases live_of_insertion hw hedit hunused hbelow h with rfl | ⟨-, hlive, hsame⟩
    · obtain ⟨_, _, _, hlive'⟩ := h
      obtain ⟨l, -, hl⟩ := howns hlive'.2.1
      exact ⟨l, hl⟩
    · obtain ⟨l, -, hl⟩ := hold hlive hsame
      exact ⟨l, hl⟩
  · rcases live_of_insertion hw hedit hunused hbelow h₁ with rfl | ⟨-, hlive₁, hsame₁⟩ <;>
      rcases live_of_insertion hw hedit hunused hbelow h₂ with rfl | ⟨-, hlive₂, hsame₂⟩
    · exact absurd rfl hne
    · exact hnew h₁ hlive₂ hsame₂ hl₁ hl₂
    · exact (hnew h₂ hlive₁ hsame₁ hl₂ hl₁).symm
    · obtain ⟨l₁', hbefore₁, hafter₁⟩ := hold hlive₁ hsame₁
      obtain ⟨l₂', hbefore₂, hafter₂⟩ := hold hlive₂ hsame₂
      rw [hl₁.unique hafter₁, hl₂.unique hafter₂]
      exact hs.disjoint loc₁ loc₂ l₁' l₂' hlive₁ hlive₂ hne hbefore₁ hbefore₂

include hreach hloc hbefore hnotEnd

/-- **Putting a record in over clusters that were free keeps a volume well formed.** A
new directory has to be well formed itself. -/
theorem WellFormed.insertion
    (hflags : ¬ ((entryAt d' loc).isLabel = true ∧ (entryAt d' loc).isDir = true))
    (hnewTail : (entryAt d' loc).isDir = true → ∀ k n loc₁ loc₂, k < n →
      slotAt m (fatAt m d') (entryAt d' loc).firstCluster.toNat k = some loc₁ →
      slotAt m (fatAt m d') (entryAt d' loc).firstCluster.toNat n = some loc₂ →
      (entryAt d' loc₁).isEnd = true → (entryAt d' loc₂).isEnd = true)
    (hnewFlags : (entryAt d' loc).isDir = true → ∀ k loc₁,
      slotAt m (fatAt m d') (entryAt d' loc).firstCluster.toNat k = some loc₁ →
      ¬ ((entryAt d' loc₁).isLabel = true ∧ (entryAt d' loc₁).isDir = true))
    (hcopies : Copies m d') : WellFormed m d' := by
  have hs := hw.toSound
  have hslot := insert_slot hs hedit hunused
  have hentry := insert_entry hs hedit hunused
  refine ⟨hw.sound_insertion hedit hunused hbelow howns, hcopies,
    fun node k n' loc₁ loc₂ hnode hkn hloc₁ hloc₂ hend => ?_, fun node k loc' hnode hloc' => ?_⟩
  · rcases reach_of_insertion hw hedit hunused hbelow hnode with hnode' | ⟨-, hdir, rfl⟩
    · have hloc₁' : slotAt m (fatAt m d) node k = some loc₁ :=
        (hslot node hnode' k).symm.trans hloc₁
      have hloc₂' : slotAt m (fatAt m d) node n' = some loc₂ :=
        (hslot node hnode' n').symm.trans hloc₂
      have hne₁ : loc₁ ≠ loc := fun heq => by
        rw [heq, hnotEnd] at hend
        exact absurd hend (by decide)
      have hend₁ : (entryAt d loc₁).isEnd = true := by
        rw [← show entryAt d' loc₁ = entryAt d loc₁ from hentry node k loc₁ hnode' hloc₁' hne₁]
        exact hend
      have hend₂ := hw.tail node k n' loc₁ loc₂ hnode' hkn hloc₁' hloc₂' hend₁
      -- the slot filled is the first free one, so no end lies before it
      have hne₂ : loc₂ ≠ loc := fun heq => by
        obtain ⟨rfl, rfl⟩ := hs.slotAt_inj hnode' hreach (heq ▸ hloc₂') hloc
        rw [hbefore k hkn loc₁ hloc₁'] at hend₁
        exact absurd hend₁ (by decide)
      rw [show entryAt d' loc₂ = entryAt d loc₂ from hentry node n' loc₂ hnode' hloc₂' hne₂]
      exact hend₂
    · exact hnewTail hdir k n' loc₁ loc₂ hkn hloc₁ hloc₂ hend
  · rcases reach_of_insertion hw hedit hunused hbelow hnode with hnode' | ⟨-, hdir, rfl⟩
    · by_cases hne : loc' = loc
      · rw [hne]
        exact hflags
      · have hloc₀ : slotAt m (fatAt m d) node k = some loc' :=
          (hslot node hnode' k).symm.trans hloc'
        rw [show entryAt d' loc' = entryAt d loc' from hentry node k loc' hnode' hloc₀ hne]
        exact hw.noLabelDir node k loc' hnode' hloc₀
    · exact hnewFlags hdir k loc' hloc'

end Insert

end MasterOS.Fat
