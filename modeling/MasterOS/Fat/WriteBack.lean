/-
# Directory sectors go back to where they came from

Five operations change a sector of the current directory and compute its address once more
before they write it. The walk back over the links does not look at them, and two of the five
have freed a chain in between. Whatever the device answers, the last access of a call that
changes the directory writes the address that was read last, with nothing but writes of the
tables in between.
-/

import MasterOS.Fat.Addresses
import MasterOS.Fat.Bounds
import MasterOS.Fat.Faults
import MasterOS.Fat.Rmdir

namespace MasterOS.Fat

open MasterOS.Device MasterOS.Device.Prog

/-- The reads of the sectors of the table from `s` on. -/
def tableReads (m : Mount) (left s : ℕ) : List (Access ℕ) :=
  (List.range' s left).map fun s => .read ((m.fatStart + s) % 2 ^ 32 % 2 ^ 28)

/-- The accesses of a call in front of its search: the table is loaded, and what is new is
stored. -/
def Prepared (m : Mount) (trace : List (Access ℕ)) : Prop :=
  ∃ stores : List ℕ, trace = tableReads m m.fatSecs 0 ++ stores.map .write

/-- The accesses of a call up to and with its search: sectors of the directory are read. -/
def Searched (m : Mount) (trace : List (Access ℕ)) : Prop :=
  ∃ (before : List (Access ℕ)) (reads : List ℕ), Prepared m before ∧
    trace = before ++ reads.map .read

/-- The table is not loaded, or nothing is written behind the search, or the sector that was
read last is written to where it was, and only tables before that. -/
def WritesBack (m : Mount) (trace : List (Access ℕ)) : Prop :=
  trace <+: tableReads m m.fatSecs 0 ∨ Searched m trace ∨
    ∃ (before : List (Access ℕ)) (tables : List ℕ) (r : ℕ), Searched m before ∧
      (∀ a ∈ tables, a < m.rootStart) ∧
        trace = before ++ [.read r] ++ tables.map .write ++ [.write r]

/-- The clusters that the freeing loop meets from a first one on, in the table as it was
before. -/
inductive FreeWalk (next : ℕ → ℕ) (first : ℕ) : ℕ → Prop
  | first (low : 2 ≤ first) (high : first ≤ 0xFEF) : FreeWalk next first first
  | next {c : ℕ} (h : FreeWalk next first c) (low : 2 ≤ next c) (high : next c ≤ 0xFEF) :
      FreeWalk next first (next c)

/-- The chain of the entry that the search finds has no cluster of the chain of the current
directory. -/
def FreesElsewhere (st : Driver) (owner : Owner) (verdict : RawDirEntry → Verdict) (fuel : ℕ)
    (d : Disk) : Prop :=
  let fatBuf := loadedTable st.mount d (st.fatBuf owner)
  st.currentDirCluster ≠ 0 → ∀ hit,
    (findSlot st.mount st.currentDirCluster fatBuf verdict fuel 0).Returns d (some hit) [] →
      ∀ n c, dirCluster (fatNextCluster fatBuf) st.currentDirCluster n = some c →
        ¬ FreeWalk (fatNextCluster fatBuf) hit.entry.firstCluster.toNat c

/-- Every run of a call that returns writes back. -/
def CallWritesBack (m : Mount) {α : Type} (p : FatProg α) (d : Disk) : Prop :=
  ∀ answers value d', p.run answers d = (.ok value, d') → WritesBack m (p.accesses answers d)

section Shapes

variable {m : Mount} {trace : List (Access ℕ)}

theorem prepared_tableReads : Prepared m (tableReads m m.fatSecs 0) :=
  ⟨[], by rw [List.map_nil, List.append_nil]⟩

theorem Prepared.append (h : Prepared m trace) (more : List ℕ) :
    Prepared m (trace ++ more.map .write) := by
  obtain ⟨stores, rfl⟩ := h
  exact ⟨stores ++ more, by rw [List.append_assoc, List.map_append]⟩

theorem Prepared.searched (h : Prepared m trace) (reads : List ℕ) :
    Searched m (trace ++ reads.map .read) :=
  ⟨trace, reads, h, rfl⟩

theorem Searched.writesBack (h : Searched m trace) : WritesBack m trace := Or.inr (Or.inl h)

/-- The search may not even begin. -/
theorem Prepared.writesBack (h : Prepared m trace) : WritesBack m trace := by
  have hsearched := h.searched []
  rw [List.map_nil, List.append_nil] at hsearched
  exact hsearched.writesBack

/-- Tables may be written between the search and the sector. -/
theorem Searched.written {tables : List ℕ} {r : ℕ} (h : Searched m trace)
    (htables : ∀ a ∈ tables, a < m.rootStart) :
    WritesBack m (trace ++ [.read r] ++ tables.map .write ++ [.write r]) :=
  Or.inr (Or.inr ⟨trace, tables, r, h, htables, rfl⟩)

theorem Searched.written_directly {r : ℕ} (h : Searched m trace) :
    WritesBack m (trace ++ [.read r] ++ [.write r]) := by
  have hwritten : WritesBack m (trace ++ [.read r] ++ [].map .write ++ [.write r]) :=
    h.written fun _ ha => absurd ha List.not_mem_nil
  rwa [List.map_nil, List.append_nil] at hwritten

end Shapes

section Pieces

variable {m : Mount} {past : List (Access ℕ)} {d : Disk} {fatBuf : FatBuf}

/-! ## The sector that is read -/

/-- A sector of the directory is read at its address, and an answered device would have given
the same. -/
theorem readDirSector_traces {dirc : ℕ} (hdirc : dirc < 2 ^ 16) (s : ℕ) :
    Traces (fun r all d' => d' = d ∧ (∀ code, r = .error code → all = past) ∧
      ∀ sector, r = .ok sector → (readDirSector m dirc fatBuf s).Returns d (.ok sector) [] ∧
        ∃ lba, dirLba m (fatNextCluster fatBuf) dirc s = some lba ∧
          all = past ++ [.read (lba % 2 ^ 32 % 2 ^ 28)])
      (readDirSector m dirc fatBuf s) past d := by
  unfold readDirSector
  by_cases hroot : dirc = 0
  · rw [if_pos hroot]
    by_cases hs : m.rootSectors ≤ s
    · rw [if_pos hs]
      exact ⟨rfl, fun _ _ => rfl, fun _ h => (by cases h)⟩
    · rw [if_neg hs]
      refine ⟨⟨rfl, fun _ _ => rfl, fun _ h => (by cases h)⟩, rfl, fun _ h => (by cases h),
        fun sector hsector => ⟨?_, m.rootStart + s, ?_, rfl⟩⟩
      · rw [← hsector]
        rfl
      · rw [dirLba, if_pos hroot, if_pos (by omega)]
  · rw [if_neg hroot, walkDir_any]
    by_cases hspc : m.spc = 0
    · rw [if_pos hspc]
      trivial
    · rw [if_neg hspc]
      by_cases hin : s / m.spc = 0 ∨ InBuf (dirc % 2 ^ 16)
      · rw [if_pos hin, ret_bind, Nat.mod_eq_of_lt hdirc]
        cases hfound : dirCluster (fatNextCluster fatBuf) dirc (s / m.spc) with
        | none => exact ⟨rfl, fun _ _ => rfl, fun _ h => (by cases h)⟩
        | some c =>
            refine ⟨⟨rfl, fun _ _ => rfl, fun _ h => (by cases h)⟩, rfl, fun _ h => (by cases h),
              fun sector hsector => ⟨?_, m.clusterLba c (s % m.spc), ?_, ?_⟩⟩
            · rw [← hsector]
              rfl
            · rw [dirLba, if_neg hroot, hfound]
              rfl
            · rw [show m.clusterLba c (s % m.spc) % 2 ^ 32 = m.clusterLba c (s % m.spc) from
                Nat.mod_mod _ _]
      · rw [if_neg hin]
        trivial

/-- The search ends right behind the read of the sector that it found. -/
theorem findSlot_traces {dirc : ℕ} (hdirc : dirc < 2 ^ 16) (verdict : RawDirEntry → Verdict)
    (fuel s : ℕ) :
    Traces (fun found all d' => d' = d ∧ ∃ reads : List ℕ,
      (found = none → all = past ++ reads.map .read) ∧
        ∀ hit, found = some hit →
          (findSlot m dirc fatBuf verdict fuel s).Returns d (some hit) [] ∧
            ∃ lba, dirLba m (fatNextCluster fatBuf) dirc hit.s = some lba ∧
              all = past ++ reads.map .read ++ [.read (lba % 2 ^ 32 % 2 ^ 28)])
      (findSlot m dirc fatBuf verdict fuel s) past d := by
  induction fuel generalizing s past with
  | zero => trivial
  | succ fuel ih =>
      refine (readDirSector_traces hdirc s).bind ?_
      rintro r all _ ⟨rfl, hfailed, hread⟩
      cases r with
      | error code =>
          exact ⟨rfl, [], fun _ => (hfailed code rfl).trans (List.append_nil _).symm,
            fun _ h => (by cases h)⟩
      | ok sector =>
          obtain ⟨hreturns, lba, hlba, rfl⟩ := hread sector rfl
          rw [findSlot]
          dsimp only
          cases hscan : scanSlots verdict sector (List.range 16) with
          | nothing =>
              refine (ih _).mono ?_
              rintro found all d' ⟨hdisk, reads, hnone, hsome⟩
              refine ⟨hdisk, lba % 2 ^ 32 % 2 ^ 28 :: reads, fun h => ?_, fun hit hhit => ?_⟩
              · rw [hnone h, List.append_assoc]
                rfl
              · obtain ⟨hrest, lba', hlba', rfl⟩ := hsome hit hhit
                refine ⟨hreturns.bind ?_, lba', hlba', ?_⟩
                · dsimp only
                  rw [hscan]
                  exact hrest
                · rw [List.append_assoc past]
                  rfl
          | ended => exact ⟨rfl, [lba % 2 ^ 32 % 2 ^ 28], fun _ => rfl, fun _ h => (by cases h)⟩
          | hit i =>
              refine ⟨rfl, [], fun h => (by cases h), fun hit hhit => ?_⟩
              injection hhit with hhit
              rw [← hhit]
              refine ⟨hreturns.bind ?_, lba, hlba, ?_⟩
              · dsimp only
                rw [hscan]
                rfl
              · rw [List.map_nil, List.append_nil]

/-! ## The sector that is written -/

/-- The walk back meets the chain of the directory, as long as its links are what they were. -/
theorem walkBack_traces {b : FatBuf} {n c c' : ℕ}
    (hchain : dirCluster (fatNextCluster fatBuf) c n = some c')
    (hsame : ∀ i x, dirCluster (fatNextCluster fatBuf) c i = some x →
      fatNextCluster b x = fatNextCluster fatBuf x) :
    Traces (fun x all _ => x = c' ∧ all = past) (walkBack b n c) past d := by
  induction n generalizing c with
  | zero => exact ⟨Option.some.inj hchain, rfl⟩
  | succ n ih =>
      have hlink : fatNextCluster b c = fatNextCluster fatBuf c := hsame 0 c rfl
      rw [dirCluster] at hchain
      have hstays : ¬ (fatNextCluster fatBuf c < 2 ∨ 0xFF8 ≤ fatNextCluster fatBuf c) := by
        intro hends
        rw [if_pos hends] at hchain
        cases hchain
      rw [if_neg hstays] at hchain
      rw [walkBack, loadEntry]
      by_cases hin : InBuf c
      · rw [if_pos hin, ret_bind, hlink]
        refine ih hchain fun i x hx => hsame (i + 1) x ?_
        rw [dirCluster, if_neg hstays]
        exact hx
      · rw [if_neg hin]
        trivial

/-- The sector is written to the address it was read from. -/
theorem writeDirSector_traces {b : FatBuf} {dirc s lba : ℕ} (hdirc : dirc < 2 ^ 16)
    (hlba : dirLba m (fatNextCluster fatBuf) dirc s = some lba)
    (hsame : dirc ≠ 0 → ∀ i x, dirCluster (fatNextCluster fatBuf) dirc i = some x →
      fatNextCluster b x = fatNextCluster fatBuf x) (sector : Sector) :
    Traces (fun _ all _ => all = past ++ [.write (lba % 2 ^ 32 % 2 ^ 28)])
      (writeDirSector m dirc b s sector) past d := by
  have hwrite (a : ℕ) (h : a % 2 ^ 28 = lba % 2 ^ 32 % 2 ^ 28) (d : Disk) :
      Traces (fun _ all _ => all = past ++ [.write (lba % 2 ^ 32 % 2 ^ 28)])
        (ataWrite a sector) past d := by
    rw [← h]
    exact ⟨rfl, rfl, rfl⟩
  unfold writeDirSector
  rw [dirLba] at hlba
  by_cases hroot : dirc = 0
  · rw [if_pos hroot] at hlba ⊢
    split_ifs at hlba
    exact hwrite _ (by rw [← Option.some.inj hlba]) d
  · rw [if_neg hroot] at hlba ⊢
    obtain ⟨c, hc, rfl⟩ := Option.map_eq_some_iff.mp hlba
    refine traces_ite (fun _ => trivial) fun _ => ?_
    rw [Nat.mod_eq_of_lt hdirc]
    refine (walkBack_traces hc (hsame hroot)).bind ?_
    rintro x all d' ⟨rfl, rfl⟩
    refine hwrite _ ?_ d'
    rw [show m.clusterLba x (s % m.spc) % 2 ^ 32 = m.clusterLba x (s % m.spc) from
      Nat.mod_mod _ _]

/-- Freeing changes the entries that it meets only. -/
theorem freeChain_traces (fuel first : ℕ) :
    Traces (fun b all d' => d' = d ∧ all = past ∧
      ∀ c, ¬ FreeWalk (fatNextCluster fatBuf) first c →
        fatNextCluster b c = fatNextCluster fatBuf c)
      (freeChain fuel fatBuf first) past d := by
  -- an entry is what it was, or the loop has met it and made it zero
  suffices haux : ∀ (b : FatBuf) (c : ℕ),
      (∀ x, fatNextCluster b x = fatNextCluster fatBuf x ∨
        FreeWalk (fatNextCluster fatBuf) first x ∧ fatNextCluster b x = 0) →
      (2 ≤ c → c ≤ 0xFEF → FreeWalk (fatNextCluster fatBuf) first c) →
      Traces (fun b all d' => d' = d ∧ all = past ∧
        ∀ c, ¬ FreeWalk (fatNextCluster fatBuf) first c →
          fatNextCluster b c = fatNextCluster fatBuf c) (freeChain fuel b c) past d from
    haux fatBuf first (fun _ => Or.inl rfl) fun hlow hhigh => .first hlow hhigh
  induction fuel with
  | zero => exact fun _ _ _ _ => trivial
  | succ fuel ih =>
      intro b c hb hc
      rw [freeChain]
      refine traces_ite (fun hrange => ?_) fun _ => ⟨rfl, rfl, fun x hx => ?_⟩
      · have hmet := hc hrange.1 hrange.2
        rw [loadEntry, if_pos (inBuf_of_le hrange.2), ret_bind]
        refine ih _ _ (fun x => ?_) fun hlow hhigh => ?_
        · by_cases hx : x = c
          · rw [hx, fatNextCluster_fatSetCluster_self]
            exact Or.inr ⟨hmet, rfl⟩
          · rw [fatNextCluster_fatSetCluster_of_ne b _ hx]
            exact hb x
        · rcases hb c with hsame | ⟨-, hzero⟩
          · rw [hsame] at hlow hhigh ⊢
            exact hmet.next hlow hhigh
          · omega
      · exact (hb x).resolve_right fun h => hx h.1

/-- The search for a free slot and the record in it. -/
theorem placeEntry_traces {dirc : ℕ} (hdirc : dirc < 2 ^ 16) (fuel : ℕ) (e : RawDirEntry)
    (hpast : Prepared m past) :
    Traces (fun _ all _ => WritesBack m all) (placeEntry m dirc fatBuf fuel e) past d := by
  refine (findSlot_traces hdirc freeVerdict fuel 0).bind ?_
  rintro found all _ ⟨rfl, reads, hnone, hsome⟩
  cases found with
  | none =>
      rw [hnone rfl]
      exact (hpast.searched reads).writesBack
  | some hit =>
      obtain ⟨-, lba, hlba, rfl⟩ := hsome hit rfl
      refine (writeDirSector_traces hdirc hlba (fun _ _ _ _ => rfl) _).mono ?_
      rintro r all d' rfl
      exact (hpast.searched reads).written_directly

/-- The sectors of a file are written without a look at the disk. -/
theorem ataWrite_writes (lba : ℕ) (sector : Sector) :
    WritesWithin (fun _ => True) (ataWrite lba sector) := ⟨trivial, fun _ => trivial⟩

theorem writeSectors_writesWithin (data : ℕ → UInt8) (lba left sct bytesLeft offset : ℕ) :
    WritesWithin (fun _ => True) (writeSectors data lba left sct bytesLeft offset) := by
  induction left generalizing sct bytesLeft offset with
  | zero => trivial
  | succ left ih =>
      refine (ataWrite_writes _ _).bind fun r => ?_
      exact writesWithin_ite (fun _ => trivial) fun _ =>
        writesWithin_ite (fun _ => trivial) fun _ => ih _ _ _

theorem findFreeCluster_writesWithin (fatBuf : FatBuf) (total : ℕ) :
    WritesWithin (fun _ => True) (findFreeCluster fatBuf total) := by
  unfold findFreeCluster
  exact writesWithin_ite (fun _ => trivial) fun _ => trivial

/-- So are its clusters, as the free ones are found in the table that is loaded. -/
theorem writeClusters_writesWithin (total : ℕ) (data : ℕ → UInt8) (size fuel bytesLeft first
    prev : ℕ) (fatBuf : FatBuf) (taken : List ℕ) :
    WritesWithin (fun _ => True)
      (writeClusters m total data size fuel bytesLeft first prev fatBuf taken) := by
  induction fuel generalizing bytesLeft first prev fatBuf taken with
  | zero => trivial
  | succ fuel ih =>
      rw [writeClusters]
      refine writesWithin_ite (fun _ => trivial) fun _ => ?_
      refine (findFreeCluster_writesWithin fatBuf total).bind fun c => ?_
      refine writesWithin_ite (fun _ => trivial) fun _ => ?_
      refine (writeSectors_writesWithin data _ _ 0 bytesLeft _).bind fun left => ?_
      cases left with
      | none => trivial
      | some bytesLeft => exact ih _ _ _ _ _

/-- The sectors of the table are read in order, all of them when that succeeds. -/
theorem loadFat_traces (left s : ℕ) (fatBuf : FatBuf) :
    Traces (fun r all _ => ∃ loads, loads <+: tableReads m left s ∧ all = past ++ loads ∧
      (r.1 = 0 → loads = tableReads m left s)) (loadFat m left s fatBuf) past d := by
  induction left generalizing s fatBuf past with
  | zero => exact ⟨[], List.nil_prefix, (List.append_nil _).symm, fun _ => rfl⟩
  | succ left ih =>
      refine ⟨⟨[], List.nil_prefix, (List.append_nil _).symm, fun h => ?_⟩, (ih (s + 1) _).mono ?_⟩
      · exact absurd (show (-1 : ℤ) = 0 from h) (by decide)
      · rintro r all d' ⟨loads, hprefix, rfl, hall⟩
        have hreads : tableReads m (left + 1) s =
            .read ((m.fatStart + s) % 2 ^ 32 % 2 ^ 28) :: tableReads m left (s + 1) := by
          rw [tableReads, List.range'_succ, List.map_cons]
          rfl
        rw [hreads]
        exact ⟨_ :: loads, (List.prefix_cons_inj _).mpr hprefix, List.append_assoc _ _ _,
          fun h => by rw [hall h]⟩

/-- The rule for the prologue: the body starts behind the reads of the table. -/
theorem withFat_traces {α : Type} {st : Driver} {owner : Owner} {failed : α}
    {body : FatBuf → FatProg (α × Driver)}
    (hbody : ∀ past, Prepared st.mount past → Traces (fun _ all _ => WritesBack st.mount all)
      (body (loadedTable st.mount d (st.fatBuf owner))) past d) :
    Traces (fun _ all _ => WritesBack st.mount all) (withFat st owner failed body) [] d := by
  unfold withFat
  have hmeets : Prog.Meets (fun _ => False) (fun r d' => d' = d ∧ (r.1 = 0 →
      (loadFat st.mount st.mount.fatSecs 0 (st.fatBuf owner)).Returns d r []))
      (loadFat st.mount st.mount.fatSecs 0 (st.fatBuf owner)) d := loadFat_meets _ 0 _
  refine traces_ite (fun _ => ?_) fun _ => Or.inl List.nil_prefix
  refine ((loadFat_traces _ 0 _).and_meets hmeets).bind ?_
  rintro ⟨r, fatBuf⟩ all _ ⟨⟨loads, hprefix, rfl, hall⟩, rfl, hloaded⟩
  refine traces_ite (fun _ => Or.inl hprefix) fun hzero => ?_
  obtain rfl := not_not.mp hzero
  have hsame := (hloaded rfl).unique (loadFat_returns_loadedTable st.mount _ _)
  rw [(Prod.mk.inj hsame.1).2, hall rfl]
  exact hbody _ prepared_tableReads

end Pieces

/-! ## The calls -/

section Calls

variable {st : Driver} {d : Disk} (hu : st.mount.Usable) (hdirc : st.currentDirCluster < 2 ^ 16)

include hdirc in
theorem fatRename_traces (fuel : ℕ) (oldName newName : CString) :
    Traces (fun _ all _ => WritesBack st.mount all) (fatRename fuel st oldName newName) [] d := by
  unfold fatRename
  refine withFat_traces fun past hpast => ?_
  refine (findSlot_traces hdirc _ fuel 0).bind ?_
  rintro found all _ ⟨rfl, reads, hnone, hsome⟩
  cases found with
  | none =>
      rw [hnone rfl]
      exact (hpast.searched reads).writesBack
  | some hit =>
      obtain ⟨-, lba, hlba, rfl⟩ := hsome hit rfl
      refine (writeDirSector_traces hdirc hlba (fun _ _ _ _ => rfl) _).bind ?_
      rintro r all d' rfl
      exact (hpast.searched reads).written_directly

include hu hdirc in
/-- Between the search and the sector the chain is freed and the tables are written. -/
theorem removeEntry_traces {owner : Owner} {verdict : RawDirEntry → Verdict} {fuel : ℕ}
    (helse : FreesElsewhere st owner verdict fuel d) :
    Traces (fun _ all _ => WritesBack st.mount all) (removeEntry owner verdict fuel st) [] d := by
  refine withFat_traces fun past hpast => ?_
  refine (findSlot_traces hdirc _ fuel 0).bind ?_
  rintro found all _ ⟨rfl, reads, hnone, hsome⟩
  cases found with
  | none =>
      rw [hnone rfl]
      exact (hpast.searched reads).writesBack
  | some hit =>
      obtain ⟨hfound, lba, hlba, rfl⟩ := hsome hit rfl
      refine (freeChain_traces fuel _).bind ?_
      rintro b all _ ⟨rfl, rfl, hothers⟩
      refine ((writeFat_writesWithin hu b).traces _ _).bind ?_
      rintro r all d' ⟨tables, htables, rfl⟩
      refine (writeDirSector_traces hdirc hlba (fun hne n c hc => ?_) _).bind ?_
      · exact hothers c (helse hne hit hfound n c hc)
      · rintro r all d' rfl
        exact (hpast.searched reads).written htables

include hu hdirc in
theorem storeFile_traces (fuel : ℕ) (name : CString) (data : ℕ → UInt8) (size : ℕ) :
    Traces (fun _ all _ => WritesBack st.mount all) (storeFile fuel st name data size) [] d := by
  refine withFat_traces fun past hpast => ?_
  refine ((writeClusters_writesWithin _ data size fuel size 0 0 _ []).traces past d).bind ?_
  rintro alloc all d' ⟨clusters, -, rfl⟩
  have hfile := hpast.append clusters
  refine traces_ite (fun _ => ?_) fun _ => hfile.writesBack
  refine ((writeFat_writesWithin hu _).traces _ _).bind ?_
  rintro r all d' ⟨tables, -, rfl⟩
  have hstored := hfile.append tables
  refine traces_ite (fun _ => hstored.writesBack) fun _ => ?_
  exact (placeEntry_traces hdirc fuel _ hstored).bind fun _ _ _ h => h

include hu hdirc in
theorem fatMkdir_traces (fuel : ℕ) (name : CString) :
    Traces (fun _ all _ => WritesBack st.mount all) (fatMkdir fuel st name) [] d := by
  refine Traces.bind (Q := fun _ all _ => WritesBack st.mount all) ?_ fun _ _ _ h => h
  refine withFat_traces fun past hpast => ?_
  refine ((findFreeCluster_writesWithin _ _).traces past d).bind ?_
  rintro c all d' ⟨none, -, rfl⟩
  have hfound := hpast.append none
  refine traces_ite (fun _ => hfound.writesBack) fun _ => ?_
  refine ((writeFat_writesWithin hu _).traces _ _).bind ?_
  rintro r all d' ⟨tables, -, rfl⟩
  have htables := hfound.append tables
  refine traces_ite (fun _ => htables.writesBack) fun _ => ?_
  refine ((ataWrite_writes _ _).traces _ _).bind ?_
  rintro r all d' ⟨sectors, -, rfl⟩
  have hstored := htables.append sectors
  refine traces_ite (fun _ => hstored.writesBack) fun _ => ?_
  exact (placeEntry_traces hdirc fuel _ hstored).bind fun _ _ _ h => h

include hu hdirc in
/-- What `fat_write` does behind its delete. -/
theorem fatWrite_accesses {fuel : ℕ} {name : CString} {data : ℕ → UInt8} {size : ℕ}
    {answers : Answers} {value : ℤ × Driver} {d' : Disk}
    (hrun : (fatWrite fuel st name data size).run answers d = (.ok value, d')) :
    ∃ own, (fatWrite fuel st name data size).accesses answers d =
      (fatDelete fuel st name).accesses answers d ++ own ∧ WritesBack st.mount own := by
  have hparts : fatWrite fuel st name data size = fatDelete fuel st name >>= fun deleted =>
      storeFile fuel deleted.2 name data size >>= fun stored => .ret (stored.1.1, stored.2) := by
    rw [fatWrite, fatWriteTaken, if_pos hu.initialized, bind_assoc]
  rw [hparts, run_bind] at hrun
  rw [hparts, accesses_bind]
  cases hdelete : (fatDelete fuel st name).run answers d with
  | mk result disk =>
      rw [hdelete] at hrun
      cases result with
      | error fault =>
          injection hrun with hresult
          injection hresult
      | ok deleted =>
          have hkeeps := removeEntry_keepsBuf .delete (fileVerdict name) fuel st
          obtain ⟨fatBuf, hst⟩ := hkeeps.of_run (congrArg Prod.fst hdelete)
          refine ⟨_, rfl, ?_⟩
          dsimp only at hrun ⊢
          rw [hst] at hrun ⊢
          have hu₁ : (st.keepBuf .delete fatBuf).mount.Usable := hu
          have hstore : Traces (fun _ all _ => WritesBack st.mount all)
              (storeFile fuel (st.keepBuf .delete fatBuf) name data size) [] disk :=
            storeFile_traces hu₁ hdirc fuel name data size
          have hboth := hstore.bind (f := fun stored => .ret (stored.1.1, stored.2))
            (R := fun _ all _ => WritesBack st.mount all) fun _ _ _ h => h
          exact hboth.of_run hrun

end Calls

/-- **A directory sector goes back to where it was read.** From every volume with a sector in a
cluster, every content of the table and every current directory, and whatever the device
answers, each of the five calls writes the sector that it changes to the address that it read
it from, as long as a chain that it frees is not part of the directory. The delete that
`fat_write` starts with is a call of its own. -/
theorem callsWriteBack {st : Driver} (hu : st.mount.Usable)
    (hdirc : st.currentDirCluster < 2 ^ 16) (fuel : ℕ) (d : Disk) :
    (∀ name, FreesElsewhere st .delete (fileVerdict name) fuel d →
      CallWritesBack st.mount (fatDelete fuel st name) d) ∧
    (∀ oldName newName, CallWritesBack st.mount (fatRename fuel st oldName newName) d) ∧
    (∀ name data size answers value d',
      (fatWrite fuel st name data size).run answers d = (.ok value, d') →
        ∃ own, (fatWrite fuel st name data size).accesses answers d =
          (fatDelete fuel st name).accesses answers d ++ own ∧ WritesBack st.mount own) ∧
    (∀ name, CallWritesBack st.mount (fatMkdir fuel st name) d) ∧
    (∀ name, FreesElsewhere st .rmdir (dirVerdict name) fuel d →
      CallWritesBack st.mount (fatRmdir fuel st name) d) := by
  refine ⟨fun name helse answers value d' hrun => ?_,
    fun oldName newName answers value d' hrun => ?_,
    fun name data size answers value d' hrun => ?_, fun name answers value d' hrun => ?_,
    fun name helse answers value d' hrun => ?_⟩
  · exact (removeEntry_traces hu hdirc helse).of_run hrun
  · exact (fatRename_traces hdirc fuel oldName newName).of_run hrun
  · exact fatWrite_accesses hu hdirc hrun
  · exact (fatMkdir_traces hu hdirc fuel name).of_run hrun
  · exact (removeEntry_traces hu hdirc helse).of_run hrun

/-- A walk from a cluster that ends its chain goes nowhere else. -/
theorem FreeWalk.eq_first {next : ℕ → ℕ} {first c : ℕ} (h : FreeWalk next first c)
    (hend : 0xFEF < next first) : c = first := by
  induction h with
  | first => rfl
  | next _ _ high ih =>
      rw [ih] at high
      omega

/-- The directory `B` is removed from inside `A`, of which its chain has no cluster. -/
theorem callsWriteBack_insideA :
    ((fatRmdir 4 insideA nameB).exec nested.disk).1.map Prod.fst = .ok 0 ∧
      CallWritesBack smallMount (fatRmdir 4 insideA nameB) nested.disk := by
  have husable : insideA.mount.Usable := valid_smallMount.usable
  refine ⟨by decide +kernel, (callsWriteBack husable (by decide) 4 nested.disk).2.2.2.2 nameB ?_⟩
  have hends : fatNextCluster (loadedTable smallMount nested.disk fun _ => 0) 2 = 0xFFF ∧
      fatNextCluster (loadedTable smallMount nested.disk fun _ => 0) 3 = 0xFFF := by
    decide +kernel
  have hhit : ((findSlot smallMount 2 (loadedTable smallMount nested.disk fun _ => 0)
      (dirVerdict nameB) 4 0).exec nested.disk).1.map
        (Option.map fun hit => hit.entry.firstCluster.toNat) = .ok (some 3) := by
    decide +kernel
  intro _ hit hfound n c hc hfree
  have hexec : (findSlot smallMount 2 (loadedTable smallMount nested.disk fun _ => 0)
      (dirVerdict nameB) 4 0).exec nested.disk = (.ok (some hit), []) := hfound
  rw [hexec] at hhit
  have hfirst : hit.entry.firstCluster.toNat = 3 := Option.some.inj (Except.ok.inj hhit)
  rw [hfirst] at hfree
  have htwo : c = 2 := by
    cases n with
    | zero => exact (Option.some.inj hc).symm
    | succ n =>
        have hnone : dirCluster (fatNextCluster (loadedTable smallMount nested.disk fun _ => 0)) 2
            (n + 1) = none := if_pos (by rw [hends.1]; decide)
        cases hnone.symm.trans hc
  have hthree : c = 3 := hfree.eq_first (lt_of_lt_of_eq (by decide) hends.2.symm)
  omega

end MasterOS.Fat
