/-
# Power loss

When the device goes away in the middle of a call, the disk holds a prefix of the
call's writes. A volume is intact when the driver meets no free cluster behind a live
entry and no cluster behind two of them. Creations write the record last, behind the
table, so no prefix of them does harm. Removals write the table first: a removal that
frees clusters passes through disks on which the live record points at free clusters.
-/

import MasterOS.Fat.Bounds
import MasterOS.Fat.Runs

namespace MasterOS.Fat

open MasterOS.Device MasterOS.Device.Prog MasterOS.Math

/-- The driver meets cluster `x` when it follows the table from a record's first
cluster. -/
def Meets (m : Mount) (d : Disk) (e : RawDirEntry) (x : ℕ) : Prop :=
  Visits (fatAt m d) (DataCluster m) e.firstCluster.toNat x

/-- The number 0 leads nowhere. -/
theorem not_visits_zero {m : Mount} {next : ℕ → ℕ} {x : ℕ} :
    ¬ Visits next (DataCluster m) 0 x := by
  intro h
  cases h with
  | here hok => exact absurd hok.1 (by decide)
  | there hok _ => exact absurd hok.1 (by decide)

/-- No live entry leads to a free cluster, and no two lead to the same one. -/
structure Intact (m : Mount) (d : Disk) : Prop where
  allocated : ∀ loc x, Live m d loc → Meets m d (entryAt d loc) x → fatAt m d x ≠ 0
  apart : ∀ loc loc' x, Live m d loc → Live m d loc' → loc ≠ loc' →
    Meets m d (entryAt d loc) x → ¬ Meets m d (entryAt d loc') x

/-- An entry that owns clusters leads to exactly these. -/
theorem Owns.meets_iff {m : Mount} {d : Disk} {e : RawDirEntry} {l : List ℕ}
    (h : Owns m d e l) {x : ℕ} : Meets m d e x ↔ x ∈ l := by
  rcases h with ⟨-, hzero, rfl⟩ | hchain
  · constructor
    · intro hmeets
      unfold Meets at hmeets
      rw [hzero] at hmeets
      exact absurd hmeets not_visits_zero
    · intro hx
      simp at hx
  · exact hchain.visits_iff_mem (not_dataCluster_of_endMark m)

/-- A sound volume is intact. -/
theorem Sound.intact {m : Mount} {d : Disk} (hs : Sound m d) : Intact m d where
  allocated loc x hlive hmeets := by
    obtain ⟨l, hl⟩ := hs.owns loc hlive
    exact hl.fatAt_ne_zero (hl.meets_iff.mp hmeets)
  apart loc loc' x hlive hlive' hne hmeets hmeets' := by
    obtain ⟨l, hl⟩ := hs.owns loc hlive
    obtain ⟨l', hl'⟩ := hs.owns loc' hlive'
    exact hs.disjoint loc loc' l l' hlive hlive' hne hl hl' (hl.meets_iff.mp hmeets)
      (hl'.meets_iff.mp hmeets')

/-! ## The table under a part of its writes -/

/-- A write goes to the table and carries a sector of the buffer, or it goes to one of
the clusters. -/
def TableOrIn (m : Mount) (fatBuf : FatBuf) (clusters : List ℕ) (w : ℕ × Sector) : Prop :=
  w ∈ fatWrites m fatBuf ∨ ∃ c ∈ clusters, ∃ k < m.spc, w.1 = m.clusterLba c k

section Partial

variable {m : Mount} (hv : m.Valid) {d : Disk} {fatBuf : FatBuf} {clusters : List ℕ}
  (hclusters : ∀ c ∈ clusters, 2 ≤ c ∧ c < 6146) {writes : List (ℕ × Sector)}
  (hwrites : ∀ w ∈ writes, TableOrIn m fatBuf clusters w)
include hv hclusters hwrites

/-- A sector of the first table is the old one or the buffer's. -/
theorem fatSector_of_partial {s : ℕ} (hs : s < m.fatSecs) :
    applyWrites writes d (m.fatStart + s) = d (m.fatStart + s) ∨
      applyWrites writes d (m.fatStart + s) = fatSector fatBuf s := by
  rcases applyWrites_eq_or writes d (m.fatStart + s) with hsame | ⟨w, hw, haddr, hblock⟩
  · exact Or.inl hsame
  · right
    rw [hblock]
    rcases hwrites w hw with htable | ⟨c, hc, k, hk, hck⟩
    · obtain ⟨f, s', hf, hs', rfl⟩ := mem_fatWrites.mp htable
      have heq : m.fatStart + f * m.bpb.sectorsPerFat.toNat + s' =
          m.fatStart + 0 * m.bpb.sectorsPerFat.toNat + s := by
        rw [Nat.zero_mul, Nat.add_zero]
        exact haddr
      obtain ⟨-, rfl⟩ := fatCopy_inj hs' hs heq
      rfl
    · obtain ⟨h2, hlt⟩ := hclusters c hc
      have hlow := hv.dataStart_le_clusterLba h2 hlt hk
      have hdata := hv.dataStart_eq
      have hspf := m.fatSecs_le_sectorsPerFat
      have hroot := hv.fatCopy_lt hv.fatCount_pos (show s < _ by omega)
      rw [Nat.zero_mul, Nat.add_zero] at hroot
      omega

/-- An entry on which the buffer agrees with the disk keeps its value, even where its
two bytes lie in different sectors. -/
theorem fatAt_of_partial {c : ℕ} (hload : Loaded m c)
    (hsame : fatNextCluster fatBuf c = fatAt m d c) :
    fatAt m (applyWrites writes d) c = fatAt m d c := by
  have hbyte (o : ℕ) (ho : o < m.fatSecs * 512) :
      fatImage m (applyWrites writes d) o = fatImage m d o ∨
        fatImage m (applyWrites writes d) o = fatBuf o := by
    rcases fatSector_of_partial hv hclusters hwrites (d := d) (show o / 512 < m.fatSecs by omega)
      with hold | hnew
    · exact Or.inl (congrArg (fun sector => sector.byte (o % 512)) hold)
    · right
      rw [fatImage, hnew, fatSector, Sector.byte_ofBytes _ (by omega)]
      congr 1
      omega
  unfold Loaded at hload
  exact fatNextCluster_mixed hsame.symm (hbyte _ (by omega)) (hbyte _ (by omega))

/-- Any part of the writes of a creation, up to its record, edits only the clusters. -/
theorem edit_of_cutWrites (htable : ∀ c, Loaded m c → c ∉ clusters →
      fatNextCluster fatBuf c = fatAt m d c) (S : Loc → Prop) :
    Edit m d (applyWrites writes d) S clusters := by
  refine .of_writes hclusters (fun w hw => ?_) fun c hload hc =>
    fatAt_of_partial hv hclusters hwrites hload (htable c hload hc)
  rcases hwrites w hw with htable | hcluster
  · exact fatWrites_belowOrIn hv htable
  · exact Or.inr hcluster

end Partial

/-- A part of the writes before the record leaves the volume intact. -/
theorem intact_of_partial {m : Mount} {d : Disk} (hs : Sound m d) {fatBuf : FatBuf} {n : ℕ}
    {a : Chained} (halloc : tableAlloc m d fatBuf n = .ok a) {writes : List (ℕ × Sector)}
    (hwrites : ∀ w ∈ writes, TableOrIn m a.fatBuf a.clusters w) :
    Intact m (applyWrites writes d) := by
  have hedit := edit_of_cutWrites hs.valid (d := d) (clusters_of_tableAlloc halloc) hwrites
    (fun c hload hc => table_of_tableAlloc halloc hload hc) fun _ => False
  exact (hs.rename hedit (unused_of_tableAlloc halloc) fun _ h => h.elim).intact

theorem storeWrites_tableOrIn {m : Mount} (data : ℕ → UInt8) (size : ℕ) (a : Chained) :
    ∀ w ∈ storeWrites m data size a, TableOrIn m a.fatBuf a.clusters w := by
  intro w hw
  rcases List.mem_append.mp hw with hfile | htable
  · obtain ⟨j, c, k, hj, hk, -, rfl⟩ := mem_fileWrites.mp hfile
    exact Or.inr ⟨c, List.mem_of_getElem? hj, k, hk, rfl⟩
  · exact Or.inl htable

theorem mkdirWrites_tableOrIn {m : Mount} (hv : m.Valid) (parent c : ℕ) (fatBuf : FatBuf) :
    ∀ w ∈ mkdirWrites m parent c fatBuf, TableOrIn m fatBuf [c] w := by
  intro w hw
  rcases List.mem_append.mp hw with htable | hsector
  · exact Or.inl htable
  · rw [List.mem_singleton] at hsector
    exact Or.inr ⟨c, List.mem_singleton_self c, 0, hv.spc_pos, by rw [hsector]⟩

/-! ## The record comes last -/

/-- A record placed over clusters that were free leaves the volume intact, when it leads
to none but these and they are allocated. -/
theorem Created.intact {m : Mount} {d d' : Disk} (hw : WellFormed m d) {loc : Loc}
    {e : RawDirEntry} {a : Chained} (hcreated : Created m d d' loc e a)
    (hunused : Unused m d a.clusters)
    (hbelow : e.isDir = true → ∀ k loc', ¬ LiveAt m d' e.firstCluster.toNat k loc')
    (hmeets : ∀ x, Meets m d' e x → x ∈ a.clusters ∧ fatAt m d' x ≠ 0) : Intact m d' := by
  have hentry := hcreated.entry
  subst hentry
  have hold {loc' : Loc} (hlive : Live m d loc') (hsame : entryAt d' loc' = entryAt d loc') :
      ∃ l, Owns m d (entryAt d loc') l ∧ Owns m d' (entryAt d' loc') l := by
    obtain ⟨l, hl⟩ := hw.owns loc' hlive
    exact ⟨l, hl, hsame ▸ hcreated.edit.owns hl (hunused.disjoint_owns hl)⟩
  have hnew {loc' : Loc} {x : ℕ} (hlive : Live m d loc')
      (hsame : entryAt d' loc' = entryAt d loc') (h : Meets m d' (entryAt d' loc) x) :
      ¬ Meets m d' (entryAt d' loc') x := by
    intro h'
    obtain ⟨l, hl, hl'⟩ := hold hlive hsame
    exact hunused.disjoint_owns hl (hl'.meets_iff.mp h') (hmeets x h).1
  have hcases {loc' : Loc} (hlive : Live m d' loc') := live_of_insertion hw hcreated.edit hunused
    (fun _ hdir => hbelow hdir) hlive
  constructor
  · intro loc' x hlive hx
    rcases hcases hlive with rfl | ⟨-, hlive₀, hsame⟩
    · exact (hmeets x hx).2
    · obtain ⟨l, -, hl⟩ := hold hlive₀ hsame
      exact hl.fatAt_ne_zero (hl.meets_iff.mp hx)
  · intro loc₁ loc₂ x hlive₁ hlive₂ hne hx₁ hx₂
    rcases hcases hlive₁ with rfl | ⟨-, hold₁, hsame₁⟩
    · rcases hcases hlive₂ with rfl | ⟨-, hold₂, hsame₂⟩
      · exact hne rfl
      · exact hnew hold₂ hsame₂ hx₁ hx₂
    · rcases hcases hlive₂ with rfl | ⟨-, hold₂, hsame₂⟩
      · exact hnew hold₁ hsame₁ hx₂ hx₁
      · obtain ⟨l₁, hl₁, hl₁'⟩ := hold hold₁ hsame₁
        obtain ⟨l₂, hl₂, hl₂'⟩ := hold hold₂ hsame₂
        exact hw.disjoint loc₁ loc₂ l₁ l₂ hold₁ hold₂ hne hl₁ hl₂ (hl₁'.meets_iff.mp hx₁)
          (hl₂'.meets_iff.mp hx₂)

/-- A cluster whose number fits an entry of the table. -/
def Nameable (m : Mount) (c : ℕ) : Prop := 2 ≤ c ∧ c < 4096 ∧ c < m.totalClusters + 2

instance (m : Mount) (c : ℕ) : Decidable (Nameable m c) := by
  unfold Nameable
  infer_instance

theorem window_nameable (m : Mount) : Window m.totalClusters (Nameable m) where
  two_le _ h := h.1
  lt_total _ h := h.2.2
  lt _ h := h.2.1
  down c c' h h2 hle := by
    obtain ⟨-, h1, h3⟩ := h
    exact ⟨h2, by omega, by omega⟩

/-- An allocation that ran to its end inside a segment found enough room there. -/
theorem Window.room_of_complete {total : ℕ} {ok : ℕ → Prop} [DecidablePred ok]
    (hw : Window total ok) {n prev : ℕ} {fatBuf : FatBuf} {r : Chained}
    (hprev : prev ≠ 0 → fatNextCluster fatBuf prev ≠ 0)
    (halloc : allocChain total n prev fatBuf = .ok r) (hdone : r.complete = true)
    (hall : ∀ c ∈ r.clusters, ok c) : n ≤ (freeIn ok (fatNextCluster fatBuf)).card := by
  induction n generalizing prev fatBuf r with
  | zero => exact Nat.zero_le _
  | succ n ih =>
      rcases allocChain_succ_eq_ok halloc with ⟨-, rfl⟩ | ⟨c, rest, hfind, hne, hrest, rfl⟩
      · simp at hdone
      · obtain ⟨h2, -, hfree, -⟩ := fatFindFreeCluster_pos hfind hne
        have hok := hall c List.mem_cons_self
        have hmem := hw.mem_freeIn.mpr ⟨hok, hfree⟩
        have hself : fatNextCluster (takeCluster fatBuf prev c) c ≠ 0 := by
          rw [fatNextCluster_takeCluster, if_pos rfl]
          decide
        have hle := ih (fun _ => hself) hrest hdone
          fun x hx => hall x (List.mem_cons_of_mem _ hx)
        rw [hw.freeIn_takeCluster h2 (hw.lt c hok) hprev, Finset.card_erase_of_mem hmem] at hle
        have hpos := Finset.card_pos.mpr ⟨c, hmem⟩
        omega

/-- The record of a stored file leads to clusters that were taken, and these are
allocated, as long as entries of the table can name them. -/
theorem meets_newEntry {m : Mount} {d d' : Disk} {fatBuf : FatBuf} {n : ℕ} {a : Chained}
    (halloc : tableAlloc m d fatBuf n = .ok a) (hdone : a.complete = true)
    (hall : ∀ c ∈ a.clusters, Nameable m c)
    (htable : ∀ c, Loaded m c → fatAt m d' c = fatNextCluster a.fatBuf c) (name : CString)
    (size : ℕ) {x : ℕ} (hx : Meets m d' (newEntry name 0x00 (a.clusters.headD 0) size) x) :
    x ∈ a.clusters ∧ fatAt m d' x ≠ 0 := by
  have hw := window_nameable m
  have hroom := hw.room_of_complete (fun h => absurd rfl h) halloc hdone hall
  obtain ⟨l, fatBuf', halloc', hspec⟩ := hw.allocChain_of_room hroom fun h => absurd rfl h
  obtain rfl : a = ⟨true, l, fatBuf'⟩ := Except.ok.inj (halloc.symm.trans halloc')
  have hlt : l.headD 0 < 2 ^ 16 := by
    cases l with
    | nil => simp
    | cons c l =>
        have := (hall c List.mem_cons_self).2.1
        rw [List.headD_cons]
        omega
  unfold Meets at hx
  rw [firstCluster_newEntry name 0x00 hlt] at hx
  by_cases hnil : l = []
  · subst hnil
    exact absurd hx not_visits_zero
  · have hchain := hspec.chain hnil
    -- what follows a taken cluster is the next one taken, or ends the walk
    have hnext (y : ℕ) (hy : y ∈ l) :
        fatNextCluster fatBuf' y ∈ l ∨ EndMark (fatNextCluster fatBuf' y) := by
      obtain ⟨tail, htail, hsuffix⟩ := hchain.suffix_of_mem hy
      cases htail with
      | last _ hend => exact Or.inr hend
      | link _ hrest => exact Or.inl (hsuffix.subset (List.mem_cons_of_mem _ hrest.head_mem))
    have hmem : x ∈ l := by
      apply hx.mem_of_closed _ hchain.head_mem
      intro y hy hok hok'
      rw [htable y hok.2.2] at hok' ⊢
      rcases hnext y hy with hin | hend
      · exact hin
      · exact absurd hok' (not_dataCluster_of_endMark m _ hend)
    refine ⟨hmem, ?_⟩
    rw [htable x hx.ok_of_visits.2.2]
    show fatNextCluster fatBuf' x ≠ 0
    rcases hnext x hmem with hin | hend
    · have h2 := (hall _ hin).1
      omega
    · unfold EndMark at hend
      omega

/-- A cluster taken alone ends its chain. -/
theorem meets_taken {m : Mount} {d d' : Disk} {fatBuf : FatBuf} {c : ℕ} {a : Chained}
    (halloc : tableAlloc m d fatBuf 1 = .ok a) (hclusters : a.clusters = [c])
    (htable : ∀ x, Loaded m x → fatAt m d' x = fatNextCluster a.fatBuf x) {x : ℕ}
    (hx : Visits (fatAt m d') (DataCluster m) c x) : x ∈ [c] ∧ fatAt m d' x ≠ 0 := by
  have hend (hload : Loaded m c) : fatAt m d' c = 0xFFF := by
    rcases allocChain_one_eq_ok halloc with ⟨-, rfl⟩ | ⟨c', -, -, -, rfl⟩
    · simp at hclusters
    · obtain rfl : c' = c := (List.cons.inj hclusters).1
      rw [htable c' hload]
      exact fatNextCluster_fatSetCluster_self _ c' 0xFFF
  have hmem : x ∈ [c] := by
    apply hx.mem_of_closed _ (List.mem_singleton_self c)
    intro y hy hok hok'
    obtain rfl := List.mem_singleton.mp hy
    rw [hend hok.2.2] at hok'
    exact absurd hok'.2.1 (by decide)
  obtain rfl := List.mem_singleton.mp hmem
  refine ⟨hmem, ?_⟩
  rw [hend hx.ok_of_visits.2.2]
  decide

/-! ## Removals -/

/-- Writing the table as it was loaded changes nothing. -/
theorem applyWrites_take_loaded {m : Mount} {d : Disk} (hcopies : Copies m d) (fatBuf : FatBuf)
    (k : ℕ) : applyWrites ((fatWrites m (loaded m d fatBuf)).take k) d = d := by
  apply applyWrites_of_same
  intro w hw
  obtain ⟨f, s, hf, hs, rfl⟩ := mem_fatWrites.mp (List.mem_of_mem_take hw)
  show d (m.fatStart + f * m.bpb.sectorsPerFat.toNat + s) = fatSector (loaded m d fatBuf) s
  exact (hcopies f hf s hs).trans (fatSector_of_loaded (fun _ _ => rfl) hs).symm

section Remove

variable {m : Mount} {d : Disk} (hw : WellFormed m d) {dirc n : ℕ} (hreach : Reach m d dirc)
  {loc : Loc} (hlive : LiveAt m d dirc n loc) {l : List ℕ} (howns : Owns m d (entryAt d loc) l)
  (fatBuf : FatBuf)
include hw hreach hlive howns

/-- A removal that frees no cluster leaves the volume intact throughout. -/
theorem intact_removal_of_nil (hnil : l = []) (k : ℕ) :
    Intact m (applyWrites ((removeWrites m d fatBuf l loc).take k) d) := by
  have hs := hw.toSound
  have hremoved := removed_of_removeWrites (hs.walks hreach) hlive.1 howns fatBuf
  have hafter := (hs.removed hreach hlive howns hremoved).1.intact
  subst hnil
  rcases take_append_singleton_cases (fatWrites m (removedBuf m d fatBuf []))
    (slotWrite d loc (entryAt d loc).markDeleted) k with htake | htake
  · rw [removeWrites, htake, removedBuf, freeList, applyWrites_take_loaded hw.copies]
    exact hs.intact
  · rw [removeWrites, htake]
    exact hafter

/-- **A removal that frees clusters passes through a disk that is not intact**: the
table is written and the record is not. -/
theorem not_intact_removal (hne : l ≠ []) :
    ∃ k, ¬ Intact m (applyWrites ((removeWrites m d fatBuf l loc).take k) d) := by
  have hs := hw.toSound
  have hv := hs.valid
  refine ⟨(fatWrites m (removedBuf m d fatBuf l)).length, ?_⟩
  rw [removeWrites, List.take_left]
  have hedit := edit_of_removedBuf hv howns fatBuf fun _ => False
  have hdis (ld : List ℕ) (hld : ChainOf m d dirc ld) : List.Disjoint ld l :=
    hs.dir_disjoint_entry hreach hld hlive howns
  have hsame {k : ℕ} {loc' : Loc} (hloc' : slotAt m (fatAt m d) dirc k = some loc') :=
    hedit.entryAt_eq hv (hs.dirOk hreach) hdis hloc' not_false
  have hentry := hsame hlive.1
  have hnotEnd : (entryAt d loc).isEnd = false := RawDirEntry.isEnd_of_live hlive.2.1
  have hreach' := reach_home_of_removal hs hreach hlive howns
    (hedit.mono (fun _ h => h.elim) (List.Subset.refl l) howns.clusters) (List.Subset.refl l)
    (by rw [hentry]; exact hnotEnd)
  have hlive' : Live m (applyWrites (fatWrites m (removedBuf m d fatBuf l)) d) loc := by
    have hslot := hedit.slotAt_eq (hs.dirOk hreach) hdis
    refine ⟨dirc, n, hreach', (hslot n).trans hlive.1, ?_, fun k hk loc' hloc' => ?_⟩
    · exact (congrArg entryKind.live hentry).mpr hlive.2.1
    · have hloc₀ := (hslot k).symm.trans hloc'
      exact (congrArg (fun e => ¬ entryKind.isEnd e) (hsame hloc₀)).mpr
        (hlive.2.2 k hk loc' hloc₀)
  intro hintact
  rcases howns with ⟨-, -, hnil⟩ | hchain
  · exact hne hnil
  · have hok := hchain.ok_head
    refine hintact.allocated loc _ hlive' (by rw [hentry]; exact .here hok) ?_
    rw [fatAt_removedBuf hv fatBuf hok.2.2, if_pos hchain.head_mem]

end Remove

/-! ## The calls -/

section Calls

variable {st st' : Driver} {d : Disk} (hready : Ready st d) {fuel : ℕ} {r : ℤ}
  {writes : List (ℕ × Sector)}
include hready

/-- A rename is one write. -/
theorem fatRename_cut {oldName newName : CString}
    (h : (fatRename fuel st oldName newName).Returns d (r, st') writes) (k : ℕ) :
    Intact st.mount (applyWrites (writes.take k) d) := by
  have hready' := hready.fatRename h
  obtain ⟨⟨fatBuf, rfl⟩, ⟨-, -, rfl⟩ | ⟨loc, -, -, rfl⟩⟩ :=
    fatRename_outcome (hready.sound.walks hready.cwd) h
  · rw [List.take_nil]
    exact hready.sound.intact
  · rcases take_append_singleton_cases [] (slotWrite d loc (renamedEntry (entryAt d loc) newName))
      k with htake | htake
    · rw [List.nil_append] at htake
      rw [htake, List.take_nil]
      exact hready.sound.intact
    · rw [List.nil_append] at htake
      rw [htake]
      exact hready'.sound.intact

/-- A new directory is linked, cleared and only then entered. -/
theorem fatMkdir_cut {name : CString} (h : (fatMkdir fuel st name).Returns d (r, st') writes)
    (k : ℕ) : Intact st.mount (applyWrites (writes.take k) d) := by
  have hs := hready.sound
  have hv := hs.valid
  obtain ⟨taken, h⟩ := fatMkdir_returns_iff.mp h
  obtain ⟨a, halloc, -, ⟨-, -, -, rfl⟩ | ⟨c, -, hclusters, -, hcases⟩⟩ :=
    fatMkdirTaken_outcome (hs.walks hready.cwd) h
  · rw [List.take_nil]
    exact hs.intact
  · have hpart (k : ℕ) : Intact st.mount
        (applyWrites ((mkdirWrites st.mount st.currentDirCluster c a.fatBuf).take k) d) := by
      apply intact_of_partial hs halloc
      intro w hw
      rw [hclusters]
      exact mkdirWrites_tableOrIn hv _ c a.fatBuf w (List.mem_of_mem_take hw)
    rcases hcases with ⟨-, -, rfl⟩ | ⟨loc, ⟨n, htake⟩, -, rfl⟩
    · exact hpart k
    · rcases take_append_singleton_cases (mkdirWrites st.mount st.currentDirCluster c a.fatBuf)
        (slotWrite d loc (newEntry name 0x10 c 0)) k with hcut | hcut
      · rw [hcut]
        exact hpart k
      · rw [hcut]
        have hunused := unused_of_tableAlloc halloc
        have hnumbers := clusters_of_tableAlloc halloc
        rw [hclusters] at hunused hnumbers
        have hmem := List.mem_singleton_self c
        obtain ⟨h2, hlt⟩ := hnumbers c hmem
        have hcreated := created_of_mkdirWrites (hs.walks hready.cwd) halloc hclusters htake.1
          st.currentDirCluster (newEntry name 0x10 c 0)
        have hsector := sector_of_placed (hs.walks hready.cwd) htake.1 hunused hnumbers hmem
          st.currentDirCluster a.fatBuf (newEntry name 0x10 c 0)
        have hfirst := firstCluster_newEntry name 0x10 (show c < 2 ^ 16 by omega) 0
        refine hcreated.intact hready.wellFormed (by rw [hclusters]; exact hunused) (fun _ => ?_)
          fun x hx => ?_
        · rw [hfirst]
          exact not_liveAt_newDir (by omega) hsector
        · rw [Meets, hfirst] at hx
          rw [hclusters]
          exact meets_taken halloc hclusters hcreated.table hx

/-- A stored file is written, linked and only then entered. -/
theorem storeFile_cut {name : CString} {data : ℕ → UInt8} {size : ℕ} (hsize : size < 2 ^ 32)
    (hfits : Supplies st.mount.totalClusters (Nameable st.mount)
        (loaded st.mount d (st.fatBuf .write)) (clustersFor st.mount size) ∨
      ∀ loc, ¬ Named st.mount d st.currentDirCluster freeVerdict loc)
    {taken : List ℕ}
    (h : (storeFile fuel st name data size).Returns d ((r, taken), st') writes) (k : ℕ) :
    Intact st.mount (applyWrites (writes.take k) d) := by
  have hs := hready.sound
  have hv := hs.valid
  obtain ⟨a, halloc, -, -, hcases⟩ := storeFile_outcome (hs.walks hready.cwd) hsize h
  have hpart (part : List (ℕ × Sector))
      (hsub : ∀ w ∈ part, w ∈ storeWrites st.mount data size a) :
      Intact st.mount (applyWrites part d) :=
    intact_of_partial hs halloc fun w hw => storeWrites_tableOrIn data size a w (hsub w hw)
  rcases hcases with ⟨-, -, rfl⟩ | ⟨-, -, -, rfl⟩ | ⟨loc, hdone, hnamed, -, rfl⟩
  · exact hpart _ fun w hw => List.mem_append_left _ (List.mem_of_mem_take hw)
  · exact hpart _ fun w hw => List.mem_of_mem_take hw
  · rcases take_append_singleton_cases (storeWrites st.mount data size a)
      (slotWrite d loc (newEntry name 0x00 (a.clusters.headD 0) size)) k with hcut | hcut
    · rw [hcut]
      exact hpart _ fun w hw => List.mem_of_mem_take hw
    · rw [hcut]
      obtain ⟨n, htake⟩ := id hnamed
      have hcreated := created_of_slotWrite (hs.walks hready.cwd) halloc
        (storeWrites_belowOrIn hv data size a)
        (fun x hload => fatAt_storeWrites hv data size a d hload) htake.1
        (copies_storeWrites hv data size a d) (newEntry name 0x00 (a.clusters.headD 0) size)
      have hsupplies := hfits.resolve_right fun hnone => hnone loc hnamed
      have hall := ((window_nameable st.mount).clusters_ok_iff (fun h => absurd rfl h)
        halloc).mpr hsupplies
      refine hcreated.intact hready.wellFormed (unused_of_tableAlloc halloc) (fun hdir => ?_)
        fun x hx => meets_newEntry halloc hdone hall hcreated.table name size hx
      have hfile : (newEntry name 0x00 (a.clusters.headD 0) size).isDir = false := by
        simp [RawDirEntry.isDir, newEntry]
      rw [hfile] at hdir
      exact absurd hdir (by decide)

/-- A removal, cut anywhere, leaves the volume intact exactly when it frees nothing. -/
theorem removeEntry_cut {owner : Owner} {verdict : RawDirEntry → Verdict}
    (hlive : ∀ loc, Named st.mount d st.currentDirCluster verdict loc →
      ∃ n, LiveAt st.mount d st.currentDirCluster n loc)
    (h : (removeEntry owner verdict fuel st).Returns d (r, st') writes) :
    (∀ k, Intact st.mount (applyWrites (writes.take k) d)) ↔
      ∀ loc, Named st.mount d st.currentDirCluster verdict loc →
        (entryAt d loc).firstCluster.toNat = 0 := by
  have hs := hready.sound
  obtain ⟨-, ⟨hnone, -, rfl⟩ | ⟨loc, n, l, hnamed, hliveAt, howns, -, rfl⟩⟩ :=
    removeEntry_outcome hs hready.cwd hlive h
  · constructor
    · intro _ loc hnamed
      exact absurd hnamed (hnone loc)
    · intro _ k
      rw [List.take_nil]
      exact hs.intact
  · have hnil : l = [] ↔ (entryAt d loc).firstCluster.toNat = 0 := by
      rcases howns with ⟨-, hzero, hl⟩ | hchain
      · exact iff_of_true hl hzero
      · refine iff_of_false (fun hl => ?_) fun hzero => ?_
        · have hmem := hchain.head_mem
          rw [hl] at hmem
          simp at hmem
        · have hok := hchain.ok_head.1
          omega
    constructor
    · intro hall loc' hnamed'
      obtain ⟨n₁, htake⟩ := hnamed
      obtain ⟨n₂, htake'⟩ := hnamed'
      obtain ⟨-, rfl⟩ := htake.unique htake'
      by_contra hzero
      obtain ⟨k, hnot⟩ := not_intact_removal hready.wellFormed hready.cwd hliveAt howns
        (st.fatBuf owner) fun hl => hzero (hnil.mp hl)
      exact hnot (hall k)
    · intro hzero k
      exact intact_removal_of_nil hready.wellFormed hready.cwd hliveAt howns (st.fatBuf owner)
        (hnil.mpr (hzero loc hnamed)) k

/-- A delete that frees no cluster leaves the table that a store loads. -/
theorem loaded_after_delete {name : CString}
    (h : (fatDelete fuel st name).Returns d (r, st') writes)
    (hempty : ∀ loc, Named st.mount d st.currentDirCluster (fileVerdict name) loc →
      (entryAt d loc).firstCluster.toNat = 0) (fatBuf : FatBuf) :
    loaded st.mount (applyWrites writes d) fatBuf = loaded st.mount d fatBuf := by
  have hreplaced : Replaced st.mount d st.currentDirCluster name [] := by
    by_cases hnamed : ∃ loc, Named st.mount d st.currentDirCluster (fileVerdict name) loc
    · obtain ⟨loc, hnamed⟩ := hnamed
      exact Or.inl ⟨loc, hnamed, Or.inl ⟨hnamed.file.2.1, hempty loc hnamed, rfl⟩⟩
    · exact Or.inr ⟨fun loc hloc => hnamed ⟨loc, hloc⟩, rfl⟩
  rw [table_after_delete hready.sound hready.cwd h hreplaced]
  rfl

/-- A write that replaces a file with clusters frees them first. -/
theorem not_fatWrite_cut {name : CString} {data : ℕ → UInt8} {size : ℕ}
    (h : (fatWrite fuel st name data size).Returns d (r, st') writes)
    (hfrees : ∃ loc, Named st.mount d st.currentDirCluster (fileVerdict name) loc ∧
      (entryAt d loc).firstCluster.toNat ≠ 0) :
    ¬ ∀ k, Intact st.mount (applyWrites (writes.take k) d) := by
  obtain ⟨code, fatBuf, taken, first, second, hdelete, -, rfl, -⟩ :=
    fatWrite_split hready.sound hready.cwd h
  intro hall
  obtain ⟨loc, hnamed, hne⟩ := hfrees
  apply hne
  refine (removeEntry_cut hready (fun loc hnamed => hnamed.file.1) hdelete).mp (fun k => ?_) loc
    hnamed
  have hcut := hall (min k first.length)
  rw [List.take_append_of_le_length (Nat.min_le_right _ _)] at hcut
  rw [← List.take_eq_take_min] at hcut
  exact hcut

/-- A write that frees no cluster is a delete and a store that are both safe. -/
theorem fatWrite_cut {name : CString} {data : ℕ → UInt8} {size : ℕ} (hsize : size < 2 ^ 32)
    (h : (fatWrite fuel st name data size).Returns d (r, st') writes)
    (hempty : ∀ loc, Named st.mount d st.currentDirCluster (fileVerdict name) loc →
      (entryAt d loc).firstCluster.toNat = 0)
    (hfits : Supplies st.mount.totalClusters (Nameable st.mount)
        (loaded st.mount d (st.fatBuf .write)) (clustersFor st.mount size) ∨
      (∀ loc, ¬ Named st.mount d st.currentDirCluster (fileVerdict name) loc) ∧
        ∀ loc, ¬ Named st.mount d st.currentDirCluster freeVerdict loc) (k : ℕ) :
    Intact st.mount (applyWrites (writes.take k) d) := by
  have hs := hready.sound
  obtain ⟨code, fatBuf, taken, first, second, hdelete, hstore, rfl, -⟩ :=
    fatWrite_split hs hready.cwd h
  have hready₁ := hready.fatDelete hdelete
  have hloaded := loaded_after_delete hready hdelete hempty (st.fatBuf .write)
  have hfits₁ : Supplies st.mount.totalClusters (Nameable st.mount)
        (loaded st.mount (applyWrites first d) (st.fatBuf .write)) (clustersFor st.mount size) ∨
      ∀ loc, ¬ Named st.mount (applyWrites first d) st.currentDirCluster freeVerdict loc := by
    rw [hloaded]
    rcases hfits with hsupplies | ⟨hnone, hfull⟩
    · exact Or.inl hsupplies
    · obtain ⟨-, ⟨-, -, rfl⟩ | ⟨loc, -, -, hnamed, -⟩⟩ :=
        removeEntry_outcome hs hready.cwd (fun loc hnamed => hnamed.file.1) hdelete
      · exact Or.inr hfull
      · exact absurd hnamed (hnone loc)
  rcases take_append_cases first second k with hcut | ⟨j, hcut⟩
  · rw [hcut]
    exact (removeEntry_cut hready (fun loc hnamed => hnamed.file.1) hdelete).mpr hempty k
  · rw [hcut, applyWrites_append]
    exact storeFile_cut hready₁ hsize hfits₁ hstore j

end Calls

/-! ## Every call, cut anywhere -/

/-- A size is a `uint32_t`. -/
def Op.Sized : Op → Prop
  | .write _ _ size => size < 2 ^ 32
  | _ => True

/-- The call takes out an entry that has clusters. -/
def Op.Frees (s : System) : Op → Prop
  | .write name _ _ | .delete name =>
      ∃ loc, Named s.driver.mount s.disk s.driver.currentDirCluster (fileVerdict name) loc ∧
        (entryAt s.disk loc).firstCluster.toNat ≠ 0
  | .rmdir name =>
      ∃ loc, Named s.driver.mount s.disk s.driver.currentDirCluster (dirVerdict name) loc ∧
        (entryAt s.disk loc).firstCluster.toNat ≠ 0
  | _ => False

/-- The clusters that the call links have numbers that fit the entries of the table, or
it links none because the directory is full. -/
def Op.LinksFit (s : System) : Op → Prop
  | .write name _ size =>
      Supplies s.driver.mount.totalClusters (Nameable s.driver.mount)
          (loaded s.driver.mount s.disk (s.driver.fatBuf .write))
          (clustersFor s.driver.mount size) ∨
        (∀ loc, ¬ Named s.driver.mount s.disk s.driver.currentDirCluster (fileVerdict name) loc) ∧
          ∀ loc, ¬ Named s.driver.mount s.disk s.driver.currentDirCluster freeVerdict loc
  | _ => True

/-- **Crash safety.** A call that frees clusters can be cut where the volume is not
intact. A call that frees none leaves the volume intact wherever it is cut, as long as
the links it writes fit. -/
theorem cut_intact {s : System} (hready : Ready s.driver s.disk) {op : Op} (hsized : op.Sized)
    {fuel : ℕ} {r : ℤ} {st : Driver} {writes : List (ℕ × Sector)}
    (h : (op.run fuel s.driver).Returns s.disk (r, st) writes) :
    (op.Frees s → ¬ ∀ k, Intact s.driver.mount
      (((op.run fuel s.driver).run (.cutAfter k) s.disk).2)) ∧
    (¬ op.Frees s → op.LinksFit s → ∀ k, Intact s.driver.mount
      (((op.run fuel s.driver).run (.cutAfter k) s.disk).2)) := by
  have hwrites : ((op.run fuel s.driver).exec s.disk).2 = writes := congrArg Prod.snd h
  simp only [run_cutAfter, hwrites]
  have hremove {owner : Owner} {verdict : RawDirEntry → Verdict}
      (hlive : ∀ loc, Named s.driver.mount s.disk s.driver.currentDirCluster verdict loc →
        ∃ n, LiveAt s.driver.mount s.disk s.driver.currentDirCluster n loc)
      (h : (removeEntry owner verdict fuel s.driver).Returns s.disk (r, st) writes) :
      (∀ k, Intact s.driver.mount (applyWrites (writes.take k) s.disk)) ↔
        ¬ ∃ loc, Named s.driver.mount s.disk s.driver.currentDirCluster verdict loc ∧
          (entryAt s.disk loc).firstCluster.toNat ≠ 0 := by
    rw [removeEntry_cut hready hlive h]
    push Not
    rfl
  cases op with
  | write name data size =>
      constructor
      · exact not_fatWrite_cut hready h
      · intro hfrees hfits
        refine fatWrite_cut hready hsized h (fun loc hnamed => ?_) hfits
        by_contra hne
        exact hfrees ⟨loc, hnamed, hne⟩
  | delete name =>
      have hiff := hremove (fun loc hnamed => hnamed.file.1) h
      exact ⟨fun hfrees hall => hiff.mp hall hfrees, fun hfrees _ => hiff.mpr hfrees⟩
  | rename oldName newName =>
      exact ⟨fun hfrees => hfrees.elim, fun _ _ => fatRename_cut hready h⟩
  | mkdir name => exact ⟨fun hfrees => hfrees.elim, fun _ _ => fatMkdir_cut hready h⟩
  | rmdir name =>
      have hiff := hremove (fun loc hnamed => (hnamed.dir hready.wellFormed hready.cwd).1) h
      exact ⟨fun hfrees hall => hiff.mp hall hfrees, fun hfrees _ => hiff.mpr hfrees⟩
  | cd name =>
      obtain ⟨rfl, -⟩ := fatCd_outcome (hready.sound.walks hready.cwd) h
      refine ⟨fun hfrees => hfrees.elim, fun _ _ k => ?_⟩
      rw [List.take_nil]
      exact hready.sound.intact

/-- Cut after one write, the delete of a file of one cluster has written the table. The
record still leads to the cluster, which is free. -/
theorem fatDelete_cut_fileDisk : Ready (freshDriver smallMount) fileDisk ∧
    ¬ Intact smallMount (((Op.delete nameA).run 4 (freshDriver smallMount)).run (.cutAfter 1)
      fileDisk).2 := by
  refine ⟨ready_fileDisk, fun hintact => ?_⟩
  have hentry : (entryAt (((Op.delete nameA).run 4 (freshDriver smallMount)).run
      (.cutAfter 1) fileDisk).2 (2, 0)).live = true := by decide +kernel
  have hlive : Live smallMount (((Op.delete nameA).run 4 (freshDriver smallMount)).run
      (.cutAfter 1) fileDisk).2 (2, 0) :=
    ⟨0, 0, .root, rfl, hentry, fun k hk => absurd hk (Nat.not_lt_zero k)⟩
  have hfirst : (entryAt (((Op.delete nameA).run 4 (freshDriver smallMount)).run
      (.cutAfter 1) fileDisk).2 (2, 0)).firstCluster.toNat = 2 := by decide +kernel
  refine hintact.allocated (2, 0) 2 hlive ?_ (by decide +kernel)
  rw [Meets, hfirst]
  exact .here (by decide)

/-- The delete of a file of one cluster is not safe. Its first write to a blank volume
is. -/
theorem cut_intact_fileDisk :
    (¬ ∀ k, Intact smallMount (((Op.delete nameA).run 4 (freshDriver smallMount)).run
      (.cutAfter k) fileDisk).2) ∧
    ∀ k, Intact smallMount (((Op.write nameA (fun _ => 7) 1).run 4 (freshDriver smallMount)).run
      (.cutAfter k) blank).2 := by
  constructor
  · obtain ⟨st, hdelete⟩ := returns_of_exec
      (show ((fatDelete 4 (freshDriver smallMount) nameA).exec fileDisk).1.map Prod.fst = .ok 0
        by decide +kernel)
    refine (@cut_intact ⟨freshDriver smallMount, fileDisk⟩ ready_fileDisk (.delete nameA) trivial
      _ _ _ _ hdelete).1 ⟨(2, 0), ⟨0, rfl, by decide +kernel, ?_⟩, by decide +kernel⟩
    intro k hk
    exact absurd hk (Nat.not_lt_zero k)
  · obtain ⟨st, hstore⟩ := storeA_returns
    refine (@cut_intact ⟨freshDriver smallMount, blank⟩ (ready_blank valid_smallMount)
      (.write nameA (fun _ => 7) 1) (show 1 < 2 ^ 32 by decide) _ _ _ _ hstore).2 ?_ (Or.inl (Or.inl ?_))
    · rintro ⟨loc, hnamed, -⟩
      exact not_named_blank smallMount 0 nameA loc hnamed
    · refine Finset.card_pos.mpr ⟨2, (window_nameable smallMount).mem_freeIn.mpr
        ⟨by decide, ?_⟩⟩
      exact (fatNextCluster_loaded (show Loaded smallMount 2 by decide)).trans
        (fatAt_blank smallMount 2)

end MasterOS.Fat
