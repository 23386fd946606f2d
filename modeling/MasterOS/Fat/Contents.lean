/-
# What a file contains

The size and the bytes of the file that a name finds: the size in its record, and the bytes
along the chain it owns. A read delivers as many of them as the buffer takes, and does not
tell whether that is all of them. A write that succeeds leaves a file of the size it was
given; its bytes are there when its clusters are clusters that the driver follows.
-/

import MasterOS.Fat.Renaming
import MasterOS.Fat.FirstFit

namespace MasterOS.Fat

open MasterOS.Device MasterOS.Device.Prog MasterOS.Math

/-! ## Reading -/

/-- A read that returns has delivered what the buffer takes of the file, whatever the fuel. -/
theorem Contains.read {st st' : Driver} {d : Disk} (hready : Ready st d) {name : CString}
    {size : ℕ} {data : ℕ → UInt8}
    (hfile : Contains st.mount d st.currentDirCluster name size data) {bufSize : ℕ}
    (hbuf : bufSize < 2 ^ 31) {fuel : ℕ} {buf out : ℕ → UInt8} {bytes : ℤ}
    {writes : List (ℕ × Sector)}
    (h : (fatRead fuel st name buf bufSize).Returns d ((bytes, out), st') writes) :
    bytes = (min size bufSize : ℕ) ∧ Agrees data out (min size bufSize) ∧
      (∃ fatBuf, st' = st.keepBuf .read fatBuf) ∧ writes = [] := by
  obtain ⟨big, hbig, hreturns⟩ :=
    returns_of_more_fuel (fun _ _ hle => fatRead_extends hle st name buf bufSize) h
  obtain ⟨out', hout', hread⟩ := fatRead_contains hready.sound.valid.usable
    (hready.sound.dirOk hready.cwd) hfile hbuf hbig buf
  obtain ⟨hsame, rfl⟩ := hreturns.unique hread
  injection hsame with hpair hst
  injection hpair with hbytes hout
  exact ⟨hbytes, hout ▸ hout', ⟨_, hst⟩, rfl⟩

/-! ## Writing -/

theorem exists_replaced {st : Driver} {d : Disk} (hready : Ready st d) (name : CString) :
    ∃ l, Replaced st.mount d st.currentDirCluster name l := by
  by_cases hnamed : ∃ loc, Named st.mount d st.currentDirCluster (fileVerdict name) loc
  · obtain ⟨loc, hnamed⟩ := hnamed
    obtain ⟨n, hlive⟩ := hnamed.file.1
    obtain ⟨l, howns⟩ := hready.sound.owns loc ⟨_, n, hready.cwd, hlive⟩
    exact ⟨l, Or.inl ⟨loc, hnamed, howns⟩⟩
  · exact ⟨[], Or.inr ⟨not_exists.mp hnamed, rfl⟩⟩

/-- A write that fits takes clusters that the driver follows. -/
theorem Fits.regular {st : Driver} {d : Disk} {name : CString} {data : ℕ → UInt8} {size : ℕ}
    (hsize : size < 2 ^ 32)
    (hfits : Fits st.mount d st.currentDirCluster name (clustersFor st.mount size)) :
    (Op.write name data size).Regular ⟨st, d⟩ := by
  obtain ⟨l, hreplaced, hroom⟩ := hfits
  refine ⟨hsize, l, hreplaced, Or.inl (le_trans hroom (Finset.card_le_card fun c hc => ?_))⟩
  rw [Finset.mem_filter] at hc
  obtain ⟨-, hok, hfree⟩ := hc
  refine mem_freeClusters.mpr ⟨hok, ?_⟩
  rw [fatNextCluster_freeList, fatNextCluster_loaded hok.2.2]
  split_ifs with hmem
  · rfl
  · exact hfree.resolve_right hmem

/-- A chain of admissible clusters as long as the allocation, in a table of at most twelve
sectors, was supplied: no link was cut down to another cluster. -/
theorem supplies_of_chain {m : Mount} (hsecs : m.fatSecs ≤ 12) {n : ℕ} {fatBuf : FatBuf}
    {a : Chained} (halloc : allocChain m.totalClusters n 0 fatBuf = .ok a) {l : List ℕ}
    (hchain : Chain (fatNextCluster a.fatBuf) (DataCluster m) EndMark (a.clusters.headD 0) l)
    (hlen : n ≤ l.length) : Supplies m.totalClusters (DataCluster m) fatBuf n := by
  have htotal : m.totalClusters ≤ 4096 := by
    unfold Mount.totalClusters
    omega
  have hhead : a.clusters.headD 0 ∈ a.clusters := by
    have htwo := hchain.ok_head.1
    cases hclusters : a.clusters with
    | nil =>
        rw [hclusters] at htwo
        exact absurd htwo (by decide)
    | cons c rest => exact List.mem_cons_self
  have hmem : ∀ x ∈ l, x ∈ a.clusters := by
    intro x hx
    have hvisit := (hchain.visits_iff_mem (not_dataCluster_of_endMark m)).mpr hx
    apply hvisit.mem_of_closed _ hhead
    intro y hy _ hok
    rcases allocChain_entry halloc (Or.inl hy) with hlast | ⟨z, hz, hlink⟩ | ⟨hout, -⟩
    · rw [hlast] at hok
      exact absurd hok.2.1 (by decide)
    · -- a cluster beyond the twelve bits is cut down to 0 or 1
      have hlt := (allocChain_mem halloc hz).2.1
      have htwo := hok.1
      rw [hlink] at htwo ⊢
      rwa [Nat.mod_eq_of_lt (show z < 4096 by omega)]
    · exact absurd hy hout
  have hfree : l.toFinset ⊆ freeIn (DataCluster m) (fatNextCluster fatBuf) := by
    intro x hx
    rw [List.mem_toFinset] at hx
    obtain ⟨htwo, -, hzero⟩ := allocChain_mem halloc (hmem x hx)
    exact mem_freeClusters.mpr ⟨hchain.ok_of_mem hx, hzero.resolve_right (by omega)⟩
  refine Or.inl (le_trans hlen ?_)
  rw [← List.toFinset_card_of_nodup (hchain.nodup (not_dataCluster_of_endMark m))]
  exact Finset.card_le_card hfree

section Write

variable {st st' : Driver} {d : Disk} (hready : Ready st d) {name : CString}
  (hname : Valid83 name) {data : ℕ → UInt8} {size fuel : ℕ} (hsize : size < 2 ^ 32)
  {writes : List (ℕ × Sector)}
  (h : (fatWrite fuel st name data size).Returns d (0, st') writes)
include hready hname hsize h

/-- The record that a successful write leaves is the one its name finds, and the table is
the one the allocation ended with. -/
theorem fatWrite_enters {l : List ℕ}
    (hreplaced : Replaced st.mount d st.currentDirCluster name l) :
    ∃ a loc, allocChain st.mount.totalClusters (clustersFor st.mount size) 0
        (freeList (loaded st.mount d (st.fatBuf .write)) l) = .ok a ∧
      Named st.mount (applyWrites writes d) st.currentDirCluster (fileVerdict name) loc ∧
      entryAt (applyWrites writes d) loc = newEntry name 0x00 (a.clusters.headD 0) size ∧
      ∀ c, Loaded st.mount c →
        fatAt st.mount (applyWrites writes d) c = fatNextCluster a.fatBuf c := by
  obtain ⟨code, fatBuf, taken, first, second, hdelete, hstore, rfl, hs₁, hcwd₁⟩ :=
    fatWrite_split hready.sound hready.cwd h
  have hv := hready.sound.valid
  obtain ⟨a, halloc, -, -, hcases⟩ := storeFile_outcome (hs₁.walks hcwd₁) hsize hstore
  change Sound st.mount (applyWrites first d) at hs₁
  change Reach st.mount (applyWrites first d) st.currentDirCluster at hcwd₁
  change tableAlloc st.mount (applyWrites first d) (st.fatBuf .write) _ = .ok a at halloc
  obtain ⟨loc, ⟨n, hfree⟩, rfl⟩ : ∃ loc,
      Named st.mount (applyWrites first d) st.currentDirCluster freeVerdict loc ∧
        second = storeWrites st.mount data size a ++ [slotWrite (applyWrites first d) loc
          (newEntry name 0x00 (a.clusters.headD 0) size)] := by
    rcases hcases with ⟨-, hfailed, -⟩ | ⟨-, -, hfailed, -⟩ | ⟨loc, -, hnamed, -, hwrites⟩
    · exact absurd hfailed (by decide)
    · exact absurd hfailed (by decide)
    · exact ⟨loc, hnamed, hwrites⟩
  have hunused := unused_of_tableAlloc halloc
  have hcreated := created_of_storeWrites (hs₁.walks hcwd₁) halloc hfree.1 data size
    (newEntry name 0x00 (a.clusters.headD 0) size)
  have hdirs := fun ld (hld : ChainOf st.mount (applyWrites first d) st.currentDirCluster ld) =>
    hunused.disjoint_chain hld
  have hdir := hs₁.dirOk hcwd₁
  obtain ⟨hstorable, hfits⟩ := hname.fits
  have hkept := hcreated.edit.dirKept hdir hdirs
  rw [applyWrites_append]
  refine ⟨a, loc, ?_, ?_, hcreated.entry, hcreated.table⟩
  · rw [← table_after_delete hready.sound hready.cwd hdelete hreplaced]
    exact halloc
  · refine named_of_put hfree.1 hkept.slotAt
      (fun k x hx hne => hcreated.edit.entryAt_eq hv hdir hdirs hx hne) ?_ fun k hk x hx => ⟨?_, ?_⟩
    · rw [hcreated.entry]
      exact (fileVerdict_newEntry hstorable _ _).mpr hfits
    · rintro rfl
      exact absurd (hs₁.slotAt_inj hcwd₁ hcwd₁ hx hfree.1).2 hk.ne
    · exact skip_before_free hready.sound hready.cwd hdelete hfree hk hx

/-- The file that a successful write leaves has the size it was given. -/
theorem fatWrite_size {n : ℕ} {content : ℕ → UInt8}
    (hcontains : Contains st.mount (applyWrites writes d) st.currentDirCluster name n content) :
    n = size := by
  obtain ⟨l, hreplaced⟩ := exists_replaced hready name
  obtain ⟨a, loc, -, ⟨_, hnamed⟩, hentry, -⟩ := fatWrite_enters hready hname hsize h hreplaced
  obtain ⟨loc', -, ⟨_, hnamed'⟩, rfl, -⟩ := hcontains
  obtain ⟨-, rfl⟩ := hnamed.unique hnamed'
  rw [hentry, newEntry, UInt32.toNat_ofNat', Nat.mod_eq_of_lt (by omega)]

/-- A regular write that succeeds leaves the data it was given. -/
theorem fatWrite_contains (hregular : (Op.write name data size).Regular ⟨st, d⟩) :
    Contains st.mount (applyWrites writes d) st.currentDirCluster name size data := by
  obtain ⟨hstorable, hfits⟩ := hname.fits
  obtain ⟨code, deleted, first, n, loc, l, hdelete, hstored⟩ := fatWrite_stored hready hregular h
  refine hstored.contains hready.sound.valid hsize ?_
  exact hstored.named hstorable hfits fun k hk loc' hloc' =>
    skip_before_free hready.sound hready.cwd hdelete hstored.free hk hloc'

/-- With a table of at most twelve sectors only a regular write leaves as much data as it
was given. -/
theorem fatWrite_regular (hsecs : st.mount.fatSecs ≤ 12) {content : ℕ → UInt8}
    (hcontains : Contains st.mount (applyWrites writes d) st.currentDirCluster name size content) :
    (Op.write name data size).Regular ⟨st, d⟩ := by
  obtain ⟨l, hreplaced⟩ := exists_replaced hready name
  obtain ⟨a, loc, halloc, ⟨_, hnamed⟩, hentry, htable⟩ :=
    fatWrite_enters hready hname hsize h hreplaced
  refine ⟨hsize, l, hreplaced, ?_⟩
  obtain ⟨loc', chain, ⟨_, hnamed'⟩, -, howns, hdata⟩ := hcontains
  obtain ⟨-, rfl⟩ := hnamed.unique hnamed'
  have hlen : clustersFor st.mount size ≤ chain.length := by
    rw [le_mul_iff_clustersFor_le hready.sound.valid.spc_pos]
    by_contra hshort
    have hbyte := hdata (chain.length * (512 * st.mount.spc)) (by omega)
    rw [chainByte, Nat.mul_div_cancel _ (by have := hready.sound.valid.spc_pos; omega),
      List.getElem?_eq_none le_rfl] at hbyte
    exact absurd hbyte (by simp)
  rcases howns with ⟨-, -, rfl⟩ | hchain
  · exact Or.inl (le_trans hlen (Nat.zero_le _))
  · have hlt : a.clusters.headD 0 < 2 ^ 16 := by
      cases hclusters : a.clusters with
      | nil => decide
      | cons c rest =>
          have hmem := allocChain_mem halloc (hclusters ▸ List.mem_cons_self)
          have htotal := st.mount.totalClusters_le
          exact lt_of_lt_of_le hmem.2.1 (by omega)
    rw [hentry, firstCluster_newEntry name 0x00 hlt size] at hchain
    refine supplies_of_chain hsecs halloc (hchain.congr fun x hx => ?_) hlen
    exact (htable x (hchain.ok_of_mem hx).2.2).symm

end Write

end MasterOS.Fat
