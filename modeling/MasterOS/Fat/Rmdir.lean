/-
# Removing a directory

`fat_rmdir` looks at the record it clears and at the directory's own chain, and never at
what the directory holds. A directory that holds nothing live is removed without loss:
every other entry stays live and every allocated cluster keeps its owner. What a
directory does hold goes with it, out of reach and with its clusters still allocated.
-/

import MasterOS.Fat.Runs

namespace MasterOS.Fat

open MasterOS.Device MasterOS.Device.Prog MasterOS.Math

/-- A directory holds nothing live. Its two dot records are not. -/
def HoldsNothing (m : Mount) (d : Disk) (dirc : ℕ) : Prop := ∀ n loc, ¬ LiveAt m d dirc n loc

/-- Each of the given clusters that is allocated lies on the chain of a live record. -/
def Accounted (clusters : ℕ → Prop) (m : Mount) (d : Disk) : Prop :=
  ∀ c, clusters c → fatAt m d c ≠ 0 →
    ∃ loc l, Live m d loc ∧ Owns m d (entryAt d loc) l ∧ c ∈ l

/-- Taking the record at `loc` out loses nothing: it was not a directory with something
in it, every other live entry is live as it was, and every allocated cluster still has
its owner. -/
structure LosesNothing (clusters : ℕ → Prop) (m : Mount) (d d' : Disk) (loc : Loc) : Prop where
  empty : HoldsNothing m d (entryAt d loc).firstCluster.toNat
  live : ∀ loc', Live m d loc' → loc' ≠ loc → Live m d' loc' ∧ entryAt d' loc' = entryAt d loc'
  accounted : Accounted clusters m d'

section Removed

variable {m : Mount} {d d' : Disk} {dirc n : ℕ} {loc : Loc} {l : List ℕ} (hs : Sound m d)
  (hreach : Reach m d dirc) (hlive : LiveAt m d dirc n loc) (howns : Owns m d (entryAt d loc) l)
  (hremoved : Removed m d d' loc l)
include hs hreach hlive howns hremoved

/-- What a removed directory held is no longer reached: its chain was the only way. -/
theorem not_live_below_removed (hdir : (entryAt d loc).isDir = true) {k : ℕ} {loc' : Loc}
    (hbelow : LiveAt m d (entryAt d loc).firstCluster.toNat k loc') : ¬ Live m d' loc' := by
  rintro ⟨node, k', hnode, hlive'⟩
  have hgone := hremoved.live_eq_false.1
  have hsub := List.Subset.refl l
  have hkept := reach_of_removal hs hreach hlive howns hremoved.edit hsub hgone hnode
  obtain ⟨hlive₀, -⟩ := Forest.liveAt_of_remove
    (kept_slot hs hreach hlive howns hremoved.edit hsub)
    (kept_entry hs hreach hlive howns hremoved.edit hsub)
    (show ¬ (entryAt d' loc).live = true by simp [hgone])
    (entryKind.not_isEnd_of_live _ hlive.2.1) hkept hlive'
  have hchild : Reach m d (entryAt d loc).firstCluster.toNat :=
    .child hreach hlive (child_eq_some_iff.mpr ⟨hdir, rfl⟩)
  obtain ⟨rfl, -⟩ := hs.slotAt_inj hkept.1 hchild hlive₀.1 hbelow.1
  have hchain := howns.chain_of_isDir hdir
  exact kept_disjoint hs hreach hlive howns hkept hchain hchain.head_mem hchain.head_mem

/-- The removal of a directory that holds nothing keeps every other entry. -/
theorem live_after_removed (hempty : HoldsNothing m d (entryAt d loc).firstCluster.toNat)
    {loc' : Loc} (h : Live m d loc') (hne : loc' ≠ loc) :
    Live m d' loc' ∧ entryAt d' loc' = entryAt d loc' := by
  obtain ⟨hgone, hnotEnd⟩ := hremoved.live_eq_false
  have hlive' := live_after_removal hs hreach hlive howns hremoved.edit (List.Subset.refl l)
    hnotEnd (fun _ => hempty) h hne
  exact ⟨hlive', (live_of_removal hs hreach hlive howns hremoved.edit (List.Subset.refl l) hgone
    hlive').2.2⟩

/-- It also keeps the owners: a cluster still allocated was not the removed directory's. -/
theorem accounted_after_removed (hempty : HoldsNothing m d (entryAt d loc).firstCluster.toNat)
    {clusters : ℕ → Prop} (hclusters : ∀ c, clusters c → Loaded m c)
    (hacc : Accounted clusters m d) : Accounted clusters m d' := by
  intro c hc hused
  have hnotMem : c ∉ l := fun hmem => hused (hremoved.freed c hmem)
  rw [hremoved.edit.table c (hclusters c hc) hnotMem] at hused
  obtain ⟨loc', l', hlive', howns', hmem⟩ := hacc c hc hused
  have hne : loc' ≠ loc := by
    rintro rfl
    rw [howns'.unique howns] at hmem
    exact hnotMem hmem
  obtain ⟨hafter, hsame⟩ := live_after_removed hs hreach hlive howns hremoved hempty hlive' hne
  have hdis := hs.disjoint loc' loc l' l hlive' (hlive.live hreach) hne howns' howns
  exact ⟨loc', l', hafter, hsame ▸ hremoved.edit.owns howns' hdis, hmem⟩

/-- **A removal loses nothing exactly when the directory held nothing.** -/
theorem losesNothing_iff (hdir : (entryAt d loc).isDir = true) {clusters : ℕ → Prop}
    (hclusters : ∀ c, clusters c → Loaded m c) (hacc : Accounted clusters m d) :
    LosesNothing clusters m d d' loc ↔ HoldsNothing m d (entryAt d loc).firstCluster.toNat := by
  constructor
  · intro h k loc' hbelow
    have hchild : Reach m d (entryAt d loc).firstCluster.toNat :=
      .child hreach hlive (child_eq_some_iff.mpr ⟨hdir, rfl⟩)
    have hne : loc' ≠ loc := by
      rintro rfl
      exact hs.child_ne hreach hlive hdir (hs.slotAt_inj hchild hreach hbelow.1 hlive.1).1
    exact not_live_below_removed hs hreach hlive howns hremoved hdir hbelow
      (h.live loc' (hbelow.live hchild) hne).1
  · intro hempty
    exact ⟨hempty, fun _ h hne => live_after_removed hs hreach hlive howns hremoved hempty h hne,
      accounted_after_removed hs hreach hlive howns hremoved hempty hclusters hacc⟩

end Removed

/-- `fat_rmdir` on a well-formed volume: it finds no directory of the name, or takes out
the one its search finds. -/
theorem fatRmdir_outcome {st st' : Driver} {d : Disk} (hready : Ready st d) {name : CString}
    {fuel : ℕ} {r : ℤ} {writes : List (ℕ × Sector)}
    (h : (fatRmdir fuel st name).Returns d (r, st') writes) :
    ((∀ loc, ¬ Named st.mount d st.currentDirCluster (dirVerdict name) loc) ∧ r = -1) ∨
      ∃ loc n l, Named st.mount d st.currentDirCluster (dirVerdict name) loc ∧
        LiveAt st.mount d st.currentDirCluster n loc ∧ (entryAt d loc).isDir = true ∧
        Owns st.mount d (entryAt d loc) l ∧
        Removed st.mount d (applyWrites writes d) loc l := by
  have hdir : ∀ loc, Named st.mount d st.currentDirCluster (dirVerdict name) loc →
      (∃ n, LiveAt st.mount d st.currentDirCluster n loc) ∧ (entryAt d loc).isDir = true :=
    fun loc hnamed =>
      have h := hnamed.dir hready.wellFormed hready.cwd
      ⟨h.1, h.2.1⟩
  obtain ⟨-, ⟨hnone, hr, -⟩ | ⟨loc, n, l, hnamed, hlive, howns, -, rfl⟩⟩ :=
    removeEntry_outcome hready.sound hready.cwd (fun loc hnamed => (hdir loc hnamed).1) h
  · exact Or.inl ⟨hnone, hr⟩
  · exact Or.inr ⟨loc, n, l, hnamed, hlive, (hdir loc hnamed).2, howns,
      removed_of_removeWrites (hready.sound.walks hready.cwd) hlive.1 howns _⟩

/-- **When removing a directory loses nothing.** A successful `fat_rmdir` of a name
loses nothing, exactly when the directory the search finds under that name, if any,
holds nothing live. -/
theorem fatRmdir_losesNothing_iff {st : Driver} {d : Disk} (hready : Ready st d)
    {clusters : ℕ → Prop} (hclusters : ∀ c, clusters c → Loaded st.mount c)
    (hacc : Accounted clusters st.mount d) (name : CString) :
    (∀ fuel st' writes, (fatRmdir fuel st name).Returns d (0, st') writes →
      ∃ loc, Named st.mount d st.currentDirCluster (dirVerdict name) loc ∧
        LosesNothing clusters st.mount d (applyWrites writes d) loc) ↔
    ∀ loc, Named st.mount d st.currentDirCluster (dirVerdict name) loc →
      HoldsNothing st.mount d (entryAt d loc).firstCluster.toNat := by
  have hs := hready.sound
  constructor
  · intro h loc hnamed
    obtain ⟨⟨n, hlive⟩, hdir, -⟩ := hnamed.dir hready.wellFormed hready.cwd
    obtain ⟨l, howns⟩ := hs.owns loc (hlive.live hready.cwd)
    have hdis : ∀ ld, ChainOf st.mount d st.currentDirCluster ld → List.Disjoint ld l :=
      fun ld hld => hs.dir_disjoint_entry hready.cwd hld hlive howns
    have hreturns : (fatRmdir (loopBound + 1) st name).Returns d _ _ :=
      removeEntry_returns_some (hs.walks hready.cwd) (Nat.lt_succ_self loopBound) hnamed howns hdis
    obtain ⟨loc', hnamed', hnothing⟩ := h _ _ _ hreturns
    obtain ⟨k, htake⟩ := hnamed
    obtain ⟨k', htake'⟩ := hnamed'
    obtain ⟨-, rfl⟩ := htake.unique htake'
    exact hnothing.empty
  · intro h fuel st' writes hreturns
    rcases fatRmdir_outcome hready hreturns with
      ⟨-, hr⟩ | ⟨loc, n, l, hnamed, hlive, hdir, howns, hremoved⟩
    · exact absurd hr (by decide)
    · exact ⟨loc, hnamed, (losesNothing_iff hs hready.cwd hlive howns hremoved hdir hclusters
        hacc).mpr (h loc hnamed)⟩

/-! ## A directory in a directory -/

/-- The directory `A` with the directory `B` in it, seen from the root. -/
def nested : System := blankSystem.after 4 [.mkdir nameA, .cd nameA, .mkdir nameB, .cd dotDot]

theorem ready_nested : Ready (freshDriver smallMount) nested.disk := by
  have hfirst := ready_blankSystem.next 4 (.mkdir nameA)
    ⟨room_of_free (c := 2) (by decide) (by decide +kernel), fun _ _ => by decide +kernel⟩
  have hinside := hfirst.next 4 (.cd nameA) ⟨trivial, nofun⟩
  have hsecond := hinside.next 4 (.mkdir nameB)
    ⟨room_of_free (c := 3) (by decide) (by decide +kernel), fun _ _ => by decide +kernel⟩
  obtain ⟨hw, hcwd⟩ := hsecond.next 4 (.cd dotDot) ⟨trivial, nofun⟩
  exact ⟨hw, hcwd⟩

theorem table_nested : fatAt smallMount nested.disk 2 = 0xFFF ∧
    fatAt smallMount nested.disk 3 = 0xFFF ∧
    ∀ c < 341, 4 ≤ c → fatAt smallMount nested.disk c = 0 := by decide +kernel

/-- The records of the two directories. -/
theorem entryAt_nested :
    ((entryAt nested.disk (2, 0)).live = true ∧ (entryAt nested.disk (2, 0)).isDir = true ∧
      (entryAt nested.disk (2, 0)).firstCluster.toNat = 2 ∧
      dirVerdict nameA (entryAt nested.disk (2, 0)) = .take) ∧
    (entryAt nested.disk (3, 2)).live = true ∧ (entryAt nested.disk (3, 2)).isDir = true ∧
      (entryAt nested.disk (3, 2)).firstCluster.toNat = 3 ∧
      (entryAt nested.disk (3, 0)).isEnd = false ∧
      (entryAt nested.disk (3, 1)).isEnd = false := by decide +kernel

theorem liveAt_nested_root : LiveAt smallMount nested.disk 0 0 (2, 0) :=
  ⟨rfl, entryAt_nested.1.1, fun k hk => absurd hk (Nat.not_lt_zero k)⟩

theorem liveAt_nested_below : LiveAt smallMount nested.disk 2 2 (3, 2) := by
  refine ⟨rfl, entryAt_nested.2.1, fun k hk loc hloc => ?_⟩
  obtain rfl | rfl : k = 0 ∨ k = 1 := by omega
  · obtain rfl : (3, 0) = loc := Option.some.inj hloc
    exact Bool.eq_false_iff.mp entryAt_nested.2.2.2.2.1
  · obtain rfl : (3, 1) = loc := Option.some.inj hloc
    exact Bool.eq_false_iff.mp entryAt_nested.2.2.2.2.2

theorem reach_nested : Reach smallMount nested.disk 2 :=
  .child .root liveAt_nested_root
    (child_eq_some_iff.mpr ⟨entryAt_nested.1.2.1, entryAt_nested.1.2.2.1⟩)

/-- The two clusters in use belong to the two directories. -/
theorem accounted_nested : Accounted (DataCluster smallMount) smallMount nested.disk := by
  intro c hok hused
  obtain ⟨hfirst, hsecond, hfree⟩ := table_nested
  have hlt : c < 341 := by
    have := hok.2.2
    unfold Loaded at this
    have : smallMount.fatSecs = 1 := rfl
    omega
  have hcases : c = 2 ∨ c = 3 := by
    by_contra hne
    exact hused (hfree c hlt (by have := hok.1; omega))
  rcases hcases with rfl | rfl
  · refine ⟨(2, 0), [2], liveAt_nested_root.live .root, Or.inr ?_, List.mem_singleton_self _⟩
    rw [entryAt_nested.1.2.2.1]
    exact .last hok (hfirst ▸ show 0xFF8 ≤ 0xFFF by decide)
  · refine ⟨(3, 2), [3], liveAt_nested_below.live reach_nested, Or.inr ?_,
      List.mem_singleton_self _⟩
    rw [entryAt_nested.2.2.2.1]
    exact .last hok (hsecond ▸ show 0xFF8 ≤ 0xFFF by decide)

/-- **Removing `A` loses `B`.** The call succeeds, `B` is live before and not after, and its
cluster stays allocated. -/
theorem fatRmdir_loses_nested :
    Ready (freshDriver smallMount) nested.disk ∧
    Accounted (DataCluster smallMount) smallMount nested.disk ∧
    ∃ st' writes,
      (fatRmdir 4 (freshDriver smallMount) nameA).Returns nested.disk (0, st') writes ∧
      Live smallMount nested.disk (3, 2) ∧
      ¬ Live smallMount (applyWrites writes nested.disk) (3, 2) ∧
      fatAt smallMount (applyWrites writes nested.disk) 3 = 0xFFF := by
  have hexec : ((fatRmdir 4 (freshDriver smallMount) nameA).exec nested.disk).1.map Prod.fst =
      .ok 0 := by decide +kernel
  obtain ⟨st', hreturns⟩ := returns_of_exec hexec
  refine ⟨ready_nested, accounted_nested, st', _, hreturns,
    liveAt_nested_below.live reach_nested, ?_, by decide +kernel⟩
  rcases fatRmdir_outcome ready_nested hreturns with
    ⟨-, hr⟩ | ⟨loc, n, l, ⟨k, htake⟩, hlive, hdir, howns, hremoved⟩
  · exact absurd hr (by decide)
  · have hfirst : FirstTake (slotAt smallMount (fatAt smallMount nested.disk) 0) nested.disk
        (dirVerdict nameA) 0 (2, 0) :=
      ⟨rfl, entryAt_nested.1.2.2.2, fun k hk => absurd hk (Nat.not_lt_zero k)⟩
    obtain ⟨-, rfl⟩ := htake.unique hfirst
    apply not_live_below_removed ready_nested.sound .root hlive howns hremoved hdir
    rw [entryAt_nested.1.2.2.1]
    exact liveAt_nested_below

/-- The driver of that volume, inside `A`. -/
def insideA : Driver := { freshDriver smallMount with currentDirCluster := 2 }

theorem holdsNothing_nested : HoldsNothing smallMount nested.disk 3 := by
  have hentries : (entryAt nested.disk (4, 0)).live = false ∧
      (entryAt nested.disk (4, 1)).live = false ∧
      (entryAt nested.disk (4, 2)).isEnd = true := by decide +kernel
  rintro n loc ⟨hloc, hlive, hbefore⟩
  have hnot : ¬ 2 < n := fun hlt => hbefore 2 hlt (4, 2) rfl hentries.2.2
  obtain rfl | rfl | rfl : n = 0 ∨ n = 1 ∨ n = 2 := by omega
  · obtain rfl : (4, 0) = loc := Option.some.inj hloc
    exact absurd hlive (Bool.eq_false_iff.mp hentries.1)
  · obtain rfl : (4, 1) = loc := Option.some.inj hloc
    exact absurd hlive (Bool.eq_false_iff.mp hentries.2.1)
  · obtain rfl : (4, 2) = loc := Option.some.inj hloc
    exact entryKind.not_isEnd_of_live _ hlive hentries.2.2

/-- Removing the empty `B` from inside `A` loses nothing. -/
theorem fatRmdir_losesNothing_nested : Ready insideA nested.disk ∧ ∀ fuel st' writes,
    (fatRmdir fuel insideA nameB).Returns nested.disk (0, st') writes →
      ∃ loc, Named smallMount nested.disk 2 (dirVerdict nameB) loc ∧
        LosesNothing (DataCluster smallMount) smallMount nested.disk
          (applyWrites writes nested.disk) loc := by
  have hready : Ready insideA nested.disk := ⟨ready_nested.wellFormed, reach_nested⟩
  refine ⟨hready, (fatRmdir_losesNothing_iff hready (fun _ h => h.2.2) accounted_nested nameB).mpr
    fun loc hnamed => ?_⟩
  obtain ⟨⟨n, hloc, hlive, hbefore⟩, -, hmatches⟩ := hnamed.dir hready.wellFormed hready.cwd
  have hend : (entryAt nested.disk (3, 3)).isEnd = true ∧
      (entryAt nested.disk (3, 0)).live = false ∧
      (entryAt nested.disk (3, 1)).live = false := by decide +kernel
  have hnot : ¬ 3 < n := fun hlt => hbefore 3 hlt (3, 3) rfl hend.1
  obtain rfl | rfl | rfl | rfl : n = 0 ∨ n = 1 ∨ n = 2 ∨ n = 3 := by omega
  · obtain rfl : (3, 0) = loc := Option.some.inj hloc
    exact absurd hlive (Bool.eq_false_iff.mp hend.2.1)
  · obtain rfl : (3, 1) = loc := Option.some.inj hloc
    exact absurd hlive (Bool.eq_false_iff.mp hend.2.2)
  · obtain rfl : (3, 2) = loc := Option.some.inj hloc
    rw [entryAt_nested.2.2.2.1]
    exact holdsNothing_nested
  · obtain rfl : (3, 3) = loc := Option.some.inj hloc
    exact absurd hend.1 (entryKind.not_isEnd_of_live _ hlive)

end MasterOS.Fat
