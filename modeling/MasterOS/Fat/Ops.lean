/-
# What the operations do

On a sound volume, from a directory that can be reached, each operation is a short
list of writes: the table, possibly file data, and one directory sector. This module
names that list for each of them. Everything said later about an operation is said
about its list.
-/

import MasterOS.Fat.Search
import MasterOS.Fat.Alloc
import MasterOS.Fat.Fuel

namespace MasterOS.Fat

open MasterOS.Device MasterOS.Device.Prog MasterOS.Math

/-- Enough fuel for every loop of the driver over a sound volume. -/
def loopBound : ℕ := 2 ^ 24

/-! ## A directory under two tables -/

/-- The two tables agree on the clusters of a directory, which the first one links
into a proper chain. -/
def DirKept (m : Mount) (next next' : ℕ → ℕ) (dirc : ℕ) : Prop :=
  dirc = 0 ∨ ∃ l, Chain next (DataCluster m) EndMark dirc l ∧ ∀ x ∈ l, next' x = next x

namespace DirKept

variable {m : Mount} {next next' : ℕ → ℕ} {dirc : ℕ} (h : DirKept m next next' dirc)
include h

theorem dirOk : DirOk m next' dirc := by
  rcases h with rfl | ⟨l, hl, hsame⟩
  · exact Or.inl rfl
  · exact Or.inr ⟨l, hl.congr hsame⟩

theorem dirLba (s : ℕ) : dirLba m next' dirc s = dirLba m next dirc s := dirLba_congr h s

theorem slotAt (n : ℕ) : slotAt m next' dirc n = slotAt m next dirc n := slotAt_congr h n

end DirKept

/-- A table that agrees outside a list of clusters keeps the directories whose chains
avoid the list. -/
theorem dirKept_of_disjoint {m : Mount} {next next' : ℕ → ℕ} {dirc : ℕ} {l : List ℕ}
    (hdir : DirOk m next dirc)
    (hdis : ∀ ld, Chain next (DataCluster m) EndMark dirc ld → List.Disjoint ld l)
    (hother : ∀ c, DataCluster m c → c ∉ l → next' c = next c) : DirKept m next next' dirc := by
  rcases hdir with rfl | ⟨ld, hld⟩
  · exact Or.inl rfl
  · exact Or.inr ⟨ld, hld, fun x hx => hother x (hld.ok_of_mem hx) fun hxl => hdis ld hld hx hxl⟩

/-- A sector of a directory is no sector of a cluster outside its chain. -/
theorem dirLba_ne_clusterLba {m : Mount} (hv : m.Valid) {next : ℕ → ℕ} {dirc s lba c k : ℕ}
    (hdir : DirOk m next dirc) (hlba : dirLba m next dirc s = some lba)
    (hc : ∀ ld, Chain next (DataCluster m) EndMark dirc ld → c ∉ ld) (h2 : 2 ≤ c) (hlt : c < 6146)
    (hk : k < m.spc) : lba ≠ m.clusterLba c k := by
  intro heq
  rcases hdir with rfl | ⟨ld, hld⟩
  · have hge := hv.dataStart_le_clusterLba h2 hlt hk
    have hdata := hv.dataStart_eq
    rw [dirLba, if_pos rfl] at hlba
    split_ifs at hlba
    injection hlba with hlba
    omega
  · obtain ⟨x, j, hx, hj, hlbaeq, -, -⟩ := mem_of_dirLba hv.usable hld hlba
    have hok := hld.ok_of_mem hx
    have hxlt := hok.lt
    obtain ⟨rfl, -⟩ := hv.clusterLba_inj hok.1 (by omega) hj h2 hlt hk (hlbaeq.symm.trans heq)
    exact hc ld hld hx

section Volume

variable {m : Mount} {d : Disk} (hs : Sound m d)
include hs

theorem Sound.dirOk {dirc : ℕ} (h : Reach m d dirc) : DirOk m (fatAt m d) dirc :=
  hs.dir_chain h

end Volume

/-- The driver can walk this directory: the geometry is valid, and the directory is the
root or heads a proper chain. Nothing is said about the rest of the volume. -/
structure Walks (m : Mount) (d : Disk) (dirc : ℕ) : Prop where
  valid : m.Valid
  dirOk : DirOk m (fatAt m d) dirc

/-- On a sound volume every directory that can be reached can be walked. -/
theorem Sound.walks {m : Mount} {d : Disk} (hs : Sound m d) {dirc : ℕ} (h : Reach m d dirc) :
    Walks m d dirc :=
  ⟨hs.valid, hs.dirOk h⟩

/-- The table the driver loads keeps a directory that can be walked. -/
theorem Walks.dirKept_loaded {m : Mount} {d : Disk} {dirc : ℕ} (h : Walks m d dirc)
    (fatBuf : FatBuf) : DirKept m (fatAt m d) (fatNextCluster (loaded m d fatBuf)) dirc :=
  dirKept_of_disjoint (l := []) h.dirOk (fun _ _ => List.disjoint_nil_right _)
    fun _ hc _ => fatNextCluster_loaded hc.2.2

/-- The search of a directory by a table that keeps it, on a disk with the same
directory sectors. -/
theorem findSlot_dirKept {m : Mount} (hv : m.Valid) {d disk : Disk} {dirc : ℕ} {fatBuf : FatBuf}
    (hkept : DirKept m (fatAt m d) (fatNextCluster fatBuf) dirc)
    (hsame : ∀ s lba, dirLba m (fatAt m d) dirc s = some lba → disk lba = d lba)
    (verdict : RawDirEntry → Verdict) {fuel : ℕ} (hfuel : loopBound < fuel) :
    ∃ result, (findSlot m dirc fatBuf verdict fuel 0).Returns disk result [] ∧
      SearchResult (slotAt m (fatAt m d) dirc) d verdict result := by
  obtain ⟨result, hreturns, hresult⟩ := findSlot_returns hv.usable hkept.dirOk verdict disk
    (show 2 ^ 21 < fuel by unfold loopBound at hfuel; omega)
  have hslot : slotAt m (fatNextCluster fatBuf) dirc = slotAt m (fatAt m d) dirc :=
    funext hkept.slotAt
  have hentry (n : ℕ) (loc : Loc) (hloc : slotAt m (fatAt m d) dirc n = some loc) :
      disk loc.1 = d loc.1 := hsame _ _ (slotAt_eq_some_iff.mp hloc).1
  have htake (n : ℕ) (loc : Loc) : FirstTake (slotAt m (fatAt m d) dirc) disk verdict n loc ↔
      FirstTake (slotAt m (fatAt m d) dirc) d verdict n loc := by
    unfold FirstTake entryAt
    constructor
    · rintro ⟨hloc, hverdict, hbefore⟩
      refine ⟨hloc, hentry n loc hloc ▸ hverdict, fun k hk loc' hloc' => ?_⟩
      exact hentry k loc' hloc' ▸ hbefore k hk loc' hloc'
    · rintro ⟨hloc, hverdict, hbefore⟩
      refine ⟨hloc, (hentry n loc hloc).symm ▸ hverdict, fun k hk loc' hloc' => ?_⟩
      exact (hentry k loc' hloc').symm ▸ hbefore k hk loc' hloc'
  rw [hslot] at hresult
  refine ⟨result, hreturns, ?_⟩
  cases result with
  | none => exact fun n loc h => hresult n loc ((htake n loc).mpr h)
  | some hit =>
      obtain ⟨n, loc, h, hhit⟩ := hresult
      exact ⟨n, loc, (htake n loc).mp h, by rw [hhit, hentry n loc h.1]⟩

/-- The record found, from the search's own hit. -/
theorem FirstTake.hit_entry {m : Mount} {next : ℕ → ℕ} {dirc n : ℕ} {d : Disk}
    {verdict : RawDirEntry → Verdict} {loc : Loc} (h : FirstTake (slotAt m next dirc) d verdict n loc) :
    n % 16 = loc.2 ∧ (Hit.mk (n / 16) (d loc.1) (n % 16)).entry = entryAt d loc := by
  have hi := (slotAt_eq_some_iff.mp h.1).2
  exact ⟨hi.symm, by rw [Hit.entry, entryAt, hi]⟩

/-- A directory sector goes back where the search read it. -/
theorem writeDirSector_dirKept {m : Mount} (hv : m.Valid) {d : Disk} (disk : Disk) {dirc n : ℕ}
    {fatBuf : FatBuf} {loc : Loc} (hkept : DirKept m (fatAt m d) (fatNextCluster fatBuf) dirc)
    (hloc : slotAt m (fatAt m d) dirc n = some loc) (sector : Sector) :
    (writeDirSector m dirc fatBuf (n / 16) sector).Returns disk 0 [(loc.1, sector)] :=
  writeDirSector_returns hv.usable hkept.dirOk
    (by rw [hkept.dirLba]; exact (slotAt_eq_some_iff.mp hloc).1) sector disk

/-! ## Removing -/

/-- The buffer `fat_delete` and `fat_rmdir` leave. -/
def removedBuf (m : Mount) (d : Disk) (fatBuf : FatBuf) (l : List ℕ) : FatBuf :=
  freeList (loaded m d fatBuf) l

/-- The write of a directory sector with one record replaced. -/
def slotWrite (d : Disk) (loc : Loc) (e : RawDirEntry) : ℕ × Sector :=
  (loc.1, (d loc.1).setEntry loc.2 e)

/-- The writes of `fat_delete` and `fat_rmdir`: the table without the chain `l`, then
the record marked deleted. -/
def removeWrites (m : Mount) (d : Disk) (fatBuf : FatBuf) (l : List ℕ) (loc : Loc) :
    List (ℕ × Sector) :=
  fatWrites m (removedBuf m d fatBuf l) ++ [slotWrite d loc (entryAt d loc).markDeleted]

section Remove

variable {st : Driver} {d : Disk} (hwalk : Walks st.mount d st.currentDirCluster) {owner : Owner}
  {verdict : RawDirEntry → Verdict} {fuel : ℕ} (hfuel : loopBound < fuel)
include hwalk hfuel

theorem removeEntry_returns_none
    (hnone : ∀ loc, ¬ Named st.mount d st.currentDirCluster verdict loc) :
    (removeEntry owner verdict fuel st).Returns d
      (-1, st.keepBuf owner (loaded st.mount d (st.fatBuf owner))) [] := by
  obtain ⟨result, hfind, hresult⟩ := findSlot_dirKept hwalk.valid
    (hwalk.dirKept_loaded (st.fatBuf owner)) (fun _ _ _ => rfl) verdict hfuel
  cases result with
  | some hit =>
      obtain ⟨n, loc, htake, -⟩ := hresult
      exact absurd ⟨n, htake⟩ (hnone loc)
  | none =>
      rw [removeEntry, Returns, withFat_exec hwalk.valid]
      exact hfind.bind_nil rfl

theorem removeEntry_returns_some {loc : Loc} {l : List ℕ}
    (hnamed : Named st.mount d st.currentDirCluster verdict loc)
    (howns : Owns st.mount d (entryAt d loc) l)
    (hdis : ∀ ld, ChainOf st.mount d st.currentDirCluster ld → List.Disjoint ld l) :
    (removeEntry owner verdict fuel st).Returns d
      (0, st.keepBuf owner (removedBuf st.mount d (st.fatBuf owner) l))
      (removeWrites st.mount d (st.fatBuf owner) l loc) := by
  have hv := hwalk.valid
  have hkept := hwalk.dirKept_loaded (st.fatBuf owner)
  obtain ⟨result, hfind, hresult⟩ := findSlot_dirKept hv hkept (fun _ _ _ => rfl) verdict hfuel
  obtain ⟨n₀, htake₀⟩ := hnamed
  cases result with
  | none => exact absurd htake₀ (hresult n₀ loc)
  | some hit =>
      obtain ⟨n, loc', htake, rfl⟩ := hresult
      obtain ⟨rfl, rfl⟩ := htake.unique htake₀
      obtain ⟨hi, hentry⟩ := htake.hit_entry
      -- the chain is freed in the loaded table
      have hfree : freeChain fuel (loaded st.mount d (st.fatBuf owner))
          (entryAt d loc').firstCluster.toNat =
          .ret (removedBuf st.mount d (st.fatBuf owner) l) := by
        rcases howns with ⟨-, hzero, rfl⟩ | hchain
        · rw [hzero]
          exact freeChain_zero _ (by omega)
        · have hchain' : Chain (fatNextCluster (loaded st.mount d (st.fatBuf owner)))
              (DataCluster st.mount) EndMark _ l :=
            hchain.congr fun x hx => fatNextCluster_loaded (hchain.ok_of_mem hx).2.2
          have hlen := chain_length_le hchain
          exact freeChain_eq hchain' (by unfold loopBound at hfuel; omega)
      -- the directory itself is still linked
      have hkept' : DirKept st.mount (fatAt st.mount d)
          (fatNextCluster (removedBuf st.mount d (st.fatBuf owner) l)) st.currentDirCluster := by
        refine dirKept_of_disjoint (hwalk.dirOk) hdis fun c hc hcl => ?_
        rw [removedBuf, fatNextCluster_freeList, if_neg hcl]
        exact fatNextCluster_loaded hc.2.2
      rw [removeEntry, Returns, withFat_exec hv]
      refine hfind.bind_nil ?_
      dsimp only
      rw [hentry, hfree, ret_bind]
      refine (writeFat_returns hv _ _).bind ?_
      have hwrite := writeDirSector_dirKept hv (applyWrites (fatWrites st.mount
        (removedBuf st.mount d (st.fatBuf owner) l)) d) hkept' htake.1
        ((d loc'.1).setEntry loc'.2 (entryAt d loc').markDeleted)
      rw [hi]
      exact hwrite.bind_ret rfl

end Remove

/-! ## Renaming -/

/-- The record `fat_rename` leaves. -/
def renamedEntry (e : RawDirEntry) (newName : CString) : RawDirEntry :=
  { e with name := (split83 newName).1, ext := (split83 newName).2 }

section Rename

variable {st : Driver} {d : Disk} (hwalk : Walks st.mount d st.currentDirCluster)
  {oldName : CString} (newName : CString)
  {fuel : ℕ} (hfuel : loopBound < fuel)
include hwalk hfuel

theorem fatRename_returns_none
    (hnone : ∀ loc, ¬ Named st.mount d st.currentDirCluster (fileVerdict oldName) loc) :
    (fatRename fuel st oldName newName).Returns d
      (-1, st.keepBuf .rename (loaded st.mount d (st.fatBuf .rename))) [] := by
  obtain ⟨result, hfind, hresult⟩ := findSlot_dirKept hwalk.valid
    (hwalk.dirKept_loaded (st.fatBuf .rename)) (fun _ _ _ => rfl) (fileVerdict oldName) hfuel
  cases result with
  | some hit =>
      obtain ⟨n, loc, htake, -⟩ := hresult
      exact absurd ⟨n, htake⟩ (hnone loc)
  | none =>
      rw [fatRename, Returns, withFat_exec hwalk.valid]
      exact hfind.bind_nil rfl

theorem fatRename_returns_some {loc : Loc}
    (hnamed : Named st.mount d st.currentDirCluster (fileVerdict oldName) loc) :
    (fatRename fuel st oldName newName).Returns d
      (0, st.keepBuf .rename (loaded st.mount d (st.fatBuf .rename)))
      [slotWrite d loc (renamedEntry (entryAt d loc) newName)] := by
  have hv := hwalk.valid
  have hkept := hwalk.dirKept_loaded (st.fatBuf .rename)
  obtain ⟨result, hfind, hresult⟩ :=
    findSlot_dirKept hv hkept (fun _ _ _ => rfl) (fileVerdict oldName) hfuel
  obtain ⟨n₀, htake₀⟩ := hnamed
  cases result with
  | none => exact absurd htake₀ (hresult n₀ loc)
  | some hit =>
      obtain ⟨n, loc', htake, rfl⟩ := hresult
      obtain ⟨rfl, rfl⟩ := htake.unique htake₀
      obtain ⟨hi, hentry⟩ := htake.hit_entry
      have hwrite := writeDirSector_dirKept hv d hkept htake.1
        ((d loc'.1).setEntry loc'.2 (renamedEntry (entryAt d loc') newName))
      rw [fatRename, Returns, withFat_exec hv]
      refine hfind.bind_nil ?_
      dsimp only
      rw [hentry, hi]
      exact hwrite.bind_ret rfl

end Rename

/-! ## Creating -/

/-- The last loop of `fat_write` and `fat_mkdir` finds no free slot. -/
theorem placeEntry_returns_none {m : Mount} (hv : m.Valid) {d disk : Disk} {dirc : ℕ}
    {fatBuf : FatBuf} (hkept : DirKept m (fatAt m d) (fatNextCluster fatBuf) dirc)
    (hsame : ∀ s lba, dirLba m (fatAt m d) dirc s = some lba → disk lba = d lba)
    (e : RawDirEntry) {fuel : ℕ} (hfuel : loopBound < fuel)
    (hnone : ∀ loc, ¬ Named m d dirc freeVerdict loc) :
    (placeEntry m dirc fatBuf fuel e).Returns disk (-1) [] := by
  obtain ⟨result, hfind, hresult⟩ := findSlot_dirKept hv hkept hsame freeVerdict hfuel
  cases result with
  | some hit =>
      obtain ⟨n, loc, htake, -⟩ := hresult
      exact absurd ⟨n, htake⟩ (hnone loc)
  | none => exact hfind.bind_nil rfl

/-- The last loop of `fat_write` and `fat_mkdir` puts the record in the first free
slot. -/
theorem placeEntry_returns_some {m : Mount} (hv : m.Valid) {d disk : Disk} {dirc : ℕ}
    {fatBuf : FatBuf} (hkept : DirKept m (fatAt m d) (fatNextCluster fatBuf) dirc)
    (hsame : ∀ s lba, dirLba m (fatAt m d) dirc s = some lba → disk lba = d lba)
    (e : RawDirEntry) {fuel : ℕ} (hfuel : loopBound < fuel) {loc : Loc}
    (hnamed : Named m d dirc freeVerdict loc) :
    (placeEntry m dirc fatBuf fuel e).Returns disk 0 [slotWrite d loc e] := by
  obtain ⟨result, hfind, hresult⟩ := findSlot_dirKept hv hkept hsame freeVerdict hfuel
  obtain ⟨n₀, htake₀⟩ := hnamed
  cases result with
  | none => exact absurd htake₀ (hresult n₀ loc)
  | some hit =>
      obtain ⟨n, loc', htake, rfl⟩ := hresult
      obtain ⟨rfl, rfl⟩ := htake.unique htake₀
      refine hfind.bind_nil ?_
      dsimp only
      rw [htake.hit_entry.1]
      exact writeDirSector_dirKept hv disk hkept htake.1 _

/-- The allocation of `n` clusters from the table that an operation loads. -/
abbrev tableAlloc (m : Mount) (d : Disk) (fatBuf : FatBuf) (n : ℕ) : Except Fault Chained :=
  allocChain m.totalClusters n 0 (loaded m d fatBuf)

/-- Where the writes of a creation go before the directory is written. -/
def BelowOrIn (m : Mount) (clusters : List ℕ) (w : ℕ × Sector) : Prop :=
  w.1 < m.rootStart ∨ ∃ c ∈ clusters, ∃ k < m.spc, w.1 = m.clusterLba c k

section Allocated

variable {m : Mount} {d : Disk} {dirc n : ℕ} (h : Walks m d dirc) {fatBuf : FatBuf}
  {r : Chained} (halloc : tableAlloc m d fatBuf n = .ok r)
include h halloc

omit h in
/-- The clusters an allocation takes are no clusters of a proper chain. -/
theorem notMem_of_tableAlloc {ld : List ℕ} (hld : ChainOf m d dirc ld) {c : ℕ}
    (hc : c ∈ r.clusters) : c ∉ ld := by
  intro hmem
  obtain ⟨h2, -, hfree⟩ := allocChain_mem halloc hc
  have hok := hld.ok_of_mem hmem
  rw [fatNextCluster_loaded hok.2.2] at hfree
  exact fatAt_ne_zero_of_mem hld hmem (hfree.resolve_right (by omega))

/-- An allocation keeps a directory that can be walked. -/
theorem Walks.dirKept_tableAlloc : DirKept m (fatAt m d) (fatNextCluster r.fatBuf) dirc := by
  refine dirKept_of_disjoint (l := r.clusters) h.dirOk (fun ld hld x hx hxc => ?_)
    fun c hc hcl => ?_
  · exact notMem_of_tableAlloc halloc hld hxc hx
  · rw [allocChain_other halloc hcl fun h => absurd rfl h, fatNextCluster_loaded hc.2.2]

/-- Writes to the tables and to clusters that were just taken leave the directory
sectors alone. -/
theorem Walks.dirLba_unchanged {writes : List (ℕ × Sector)}
    (hwrites : ∀ w ∈ writes, BelowOrIn m r.clusters w) (s lba : ℕ)
    (hlba : dirLba m (fatAt m d) dirc s = some lba) : applyWrites writes d lba = d lba := by
  have htotal := m.totalClusters_le
  refine applyWrites_of_forall_ne fun w hw heq => ?_
  rcases hwrites w hw with hlow | ⟨c, hc, k, hk, hck⟩
  · have := (dirLba_bounds h.valid.usable h.dirOk hlba).1
    omega
  · obtain ⟨h2, hlt, -⟩ := allocChain_mem halloc hc
    exact dirLba_ne_clusterLba h.valid h.dirOk hlba
      (fun ld hld => notMem_of_tableAlloc halloc hld hc) h2 (by omega) hk
      (heq.symm.trans hck)

end Allocated

theorem fatWrites_belowOrIn {m : Mount} (hv : m.Valid) {fatBuf : FatBuf} {clusters : List ℕ}
    {w : ℕ × Sector} (hw : w ∈ fatWrites m fatBuf) : BelowOrIn m clusters w :=
  Or.inl (fatWrites_bounds hv hw).2

theorem fileWrites_belowOrIn {m : Mount} {data : ℕ → UInt8} {size i : ℕ} {l : List ℕ}
    {w : ℕ × Sector} (hw : w ∈ fileWrites m data size i l) : BelowOrIn m l w := by
  obtain ⟨j, c, k, hj, hk, -, rfl⟩ := mem_fileWrites.mp hw
  exact Or.inr ⟨c, List.mem_of_getElem? hj, k, hk, rfl⟩

/-- The writes of `fat_write` behind its delete, up to the directory: the data, then
the table. -/
def storeWrites (m : Mount) (data : ℕ → UInt8) (size : ℕ) (r : Chained) : List (ℕ × Sector) :=
  fileWrites m data size 0 r.clusters ++ fatWrites m r.fatBuf

theorem storeWrites_belowOrIn {m : Mount} (hv : m.Valid) (data : ℕ → UInt8) (size : ℕ)
    (r : Chained) : ∀ w ∈ storeWrites m data size r, BelowOrIn m r.clusters w := by
  intro w hw
  rcases List.mem_append.mp hw with h | h
  · exact fileWrites_belowOrIn h
  · exact fatWrites_belowOrIn hv h

/-- The clusters of any file fit the fuel. -/
theorem clustersFor_lt_loopBound {m : Mount} (hv : m.Valid) {size : ℕ} (hsize : size < 2 ^ 32) :
    clustersFor m size < loopBound := by
  have hpos := hv.spc_pos
  have hle : clustersFor m size ≤ 2 ^ 23 := by
    rw [le_mul_iff_clustersFor_le hv.spc_pos]
    calc size ≤ 2 ^ 23 * (512 * 1) := by omega
      _ ≤ 2 ^ 23 * (512 * m.spc) := Nat.mul_le_mul_left _ (by omega)
  unfold loopBound
  omega

section Store

variable {st : Driver} {d : Disk} (hwalk : Walks st.mount d st.currentDirCluster)
  (name : CString) (data : ℕ → UInt8) {size : ℕ}
  (hsize : size < 2 ^ 32) {fuel : ℕ} (hfuel : loopBound < fuel)

section Fault

include hwalk hsize hfuel

theorem storeFile_stops {fault : Fault}
    (halloc : tableAlloc st.mount d (st.fatBuf .write) (clustersFor st.mount size) =
      .error fault) :
    ∃ writes, (storeFile fuel st name data size).exec d = (.error fault, writes) := by
  have hbound := clustersFor_lt_loopBound hwalk.valid hsize
  have hloop := writeClusters_start hwalk.valid data (loaded st.mount d (st.fatBuf .write))
    (show clustersFor st.mount size < fuel by omega) d
  unfold tableAlloc at halloc
  rw [halloc] at hloop
  obtain ⟨writes, hwrites⟩ := hloop
  exact ⟨writes, by rw [storeFile, withFat_exec hwalk.valid, exec_bind, hwrites]⟩

variable {r : Chained}
  (halloc : tableAlloc st.mount d (st.fatBuf .write) (clustersFor st.mount size) = .ok r)
include halloc

theorem storeFile_loop :
    (writeClusters st.mount st.mount.totalClusters data size fuel size 0 0
        (loaded st.mount d (st.fatBuf .write)) []).Returns d
      ⟨r.complete, r.clusters.headD 0, r.fatBuf, r.clusters⟩
      (fileWrites st.mount data size 0 r.clusters) := by
  have hbound := clustersFor_lt_loopBound hwalk.valid hsize
  have hloop := writeClusters_start hwalk.valid data (loaded st.mount d (st.fatBuf .write))
    (show clustersFor st.mount size < fuel by omega) d
  unfold tableAlloc at halloc
  rwa [halloc] at hloop

/-- Out of clusters: the data written so far stays, the table and the directory are
not written. -/
theorem storeFile_returns_noRoom (hfailed : r.complete = false) :
    (storeFile fuel st name data size).Returns d
      ((-1, r.clusters), st.keepBuf .write r.fatBuf)
      (fileWrites st.mount data size 0 r.clusters) := by
  rw [storeFile, Returns, withFat_exec hwalk.valid]
  refine (storeFile_loop hwalk data hsize hfuel halloc).bind_ret ?_
  simp only [hfailed]
  rfl

/-- The table is written and the directory has no free slot. -/
theorem storeFile_returns_noSlot (hdone : r.complete = true)
    (hnone : ∀ loc, ¬ Named st.mount d st.currentDirCluster freeVerdict loc) :
    (storeFile fuel st name data size).Returns d
      ((-1, r.clusters), st.keepBuf .write r.fatBuf) (storeWrites st.mount data size r) := by
  have hv := hwalk.valid
  have hplace := placeEntry_returns_none hv (hwalk.dirKept_tableAlloc halloc)
    (hwalk.dirLba_unchanged halloc (storeWrites_belowOrIn hv data size r))
    (newEntry name 0x00 (r.clusters.headD 0) size) hfuel hnone
  rw [storeWrites, applyWrites_append] at hplace
  rw [storeFile, Returns, withFat_exec hv]
  refine (storeFile_loop hwalk data hsize hfuel halloc).bind ?_
  simp only [hdone, if_true]
  refine returns_bind_iff.mpr ⟨_, _, [], writeFat_returns hv _ _, ?_, (List.append_nil _).symm⟩
  exact hplace.bind_ret rfl

theorem storeFile_returns_some (hdone : r.complete = true) {loc : Loc}
    (hnamed : Named st.mount d st.currentDirCluster freeVerdict loc) :
    (storeFile fuel st name data size).Returns d
      ((0, r.clusters), st.keepBuf .write r.fatBuf)
      (storeWrites st.mount data size r ++
        [slotWrite d loc (newEntry name 0x00 (r.clusters.headD 0) size)]) := by
  have hv := hwalk.valid
  have hplace := placeEntry_returns_some hv (hwalk.dirKept_tableAlloc halloc)
    (hwalk.dirLba_unchanged halloc (storeWrites_belowOrIn hv data size r))
    (newEntry name 0x00 (r.clusters.headD 0) size) hfuel hnamed
  rw [storeWrites, applyWrites_append] at hplace
  rw [storeFile, Returns, withFat_exec hv, storeWrites, List.append_assoc]
  refine (storeFile_loop hwalk data hsize hfuel halloc).bind ?_
  simp only [hdone, if_true]
  exact (writeFat_returns hv _ _).bind (hplace.bind_ret rfl)

end Fault

/-- `fat_write` is a delete followed by a store. -/
theorem fatWriteTaken_returns_iff (hv : st.mount.Valid) {result : (ℤ × List ℕ) × Driver}
    {writes : List (ℕ × Sector)} :
    (fatWriteTaken fuel st name data size).Returns d result writes ↔
      ∃ deleted first second, (fatDelete fuel st name).Returns d deleted first ∧
        (storeFile fuel deleted.2 name data size).Returns (applyWrites first d) result second ∧
        writes = first ++ second := by
  rw [fatWriteTaken, if_pos hv.initialized]
  exact returns_bind_iff

theorem fatWrite_returns_iff {result : ℤ × Driver} {writes : List (ℕ × Sector)} :
    (fatWrite fuel st name data size).Returns d result writes ↔
      ∃ taken, (fatWriteTaken fuel st name data size).Returns d ((result.1, taken), result.2)
        writes := by
  rw [fatWrite, returns_bind_iff]
  constructor
  · rintro ⟨⟨⟨r, taken⟩, st'⟩, first, second, hfirst, hsecond, rfl⟩
    injection hsecond with hresult hwrites
    injection hresult with hresult
    subst hresult hwrites
    exact ⟨taken, by rw [List.append_nil]; exact hfirst⟩
  · rintro ⟨taken, h⟩
    exact ⟨_, writes, [], h, rfl, (List.append_nil _).symm⟩

end Store

section Mkdir

variable {st : Driver} {d : Disk} (hwalk : Walks st.mount d st.currentDirCluster)
  (name : CString) {fuel : ℕ}
  (hfuel : loopBound < fuel)

/-- The allocation of a single cluster, when it ends: none is free, or the one found
is taken. -/
theorem allocChain_one_eq_ok {total : ℕ} {fatBuf : FatBuf} {r : Chained}
    (halloc : allocChain total 1 0 fatBuf = .ok r) :
    (findFreeCluster fatBuf total = .ret 0 ∧ r = ⟨false, [], fatBuf⟩) ∨
    ∃ c, findFreeCluster fatBuf total = .ret c ∧ fatFindFreeCluster fatBuf total = c ∧ c ≠ 0 ∧
      r = ⟨true, [c], fatSetCluster fatBuf c 0xFFF⟩ := by
  rcases allocChain_succ total 0 0 fatBuf with ⟨-, hr⟩ | ⟨hfind, hr⟩ | ⟨c, hfind, hc, hne, hr⟩
  · rw [hr] at halloc
    injection halloc
  · rw [hr] at halloc
    injection halloc with halloc
    exact Or.inl ⟨hfind, halloc.symm⟩
  · rw [hr] at halloc
    injection halloc with halloc
    exact Or.inr ⟨c, hfind, hc, hne, halloc.symm⟩

/-- The writes of `fat_mkdir` up to the directory: the table, then the first sector
of the new directory. -/
def mkdirWrites (m : Mount) (parent c : ℕ) (fatBuf : FatBuf) : List (ℕ × Sector) :=
  fatWrites m fatBuf ++ [(m.clusterLba c 0, newDirSector c parent)]

theorem mkdirWrites_belowOrIn {m : Mount} (hv : m.Valid) (parent c : ℕ) (fatBuf : FatBuf) :
    ∀ w ∈ mkdirWrites m parent c fatBuf, BelowOrIn m [c] w := by
  intro w hw
  rcases List.mem_append.mp hw with h | h
  · exact fatWrites_belowOrIn hv h
  · rw [List.mem_singleton] at h
    rw [h]
    exact Or.inr ⟨c, List.mem_singleton_self c, 0, hv.spc_pos, rfl⟩

include hwalk

theorem fatMkdirTaken_stops {fault : Fault}
    (halloc : tableAlloc st.mount d (st.fatBuf .mkdir) 1 = .error fault) :
    ∃ writes, (fatMkdirTaken fuel st name).exec d = (.error fault, writes) := by
  unfold tableAlloc at halloc
  rcases allocChain_succ st.mount.totalClusters 0 0 (loaded st.mount d (st.fatBuf .mkdir)) with
    ⟨hfind, hr⟩ | ⟨-, hr⟩ | ⟨c, -, -, -, hr⟩
  · rw [hr] at halloc
    injection halloc with hfault
    subst hfault
    rw [fatMkdirTaken, withFat_exec hwalk.valid, hfind]
    exact ⟨[], rfl⟩
  · rw [hr] at halloc
    injection halloc
  · rw [hr] at halloc
    injection halloc

/-- The run of `fat_mkdir` from the cluster it found to the directory. -/
theorem fatMkdirTaken_returns_of_place {c : ℕ} {code : ℤ} {writes : List (ℕ × Sector)}
    {fatBuf : FatBuf}
    (hfind : findFreeCluster (loaded st.mount d (st.fatBuf .mkdir)) st.mount.totalClusters =
      .ret c) (hne : c ≠ 0) (h2 : 2 ≤ c) (hlt : c < 6146)
    (hbuf : fatBuf = fatSetCluster (loaded st.mount d (st.fatBuf .mkdir)) c 0xFFF)
    (hplace : (placeEntry st.mount st.currentDirCluster fatBuf fuel (newEntry name 0x10 c 0)).Returns
      (applyWrites (mkdirWrites st.mount st.currentDirCluster c fatBuf) d) code writes) :
    (fatMkdirTaken fuel st name).Returns d ((code, [c]), st.keepBuf .mkdir fatBuf)
      (mkdirWrites st.mount st.currentDirCluster c fatBuf ++ writes) := by
  have hv := hwalk.valid
  rw [mkdirWrites, applyWrites_append] at hplace
  rw [fatMkdirTaken, Returns, withFat_exec hv, hfind, ret_bind, if_neg hne, mkdirWrites,
    List.append_assoc]
  subst hbuf
  refine (writeFat_returns hv _ d).bind ?_
  rw [if_neg (by decide)]
  refine (ataWrite_returns _ (hv.clusterLba_lt h2 hlt hv.spc_pos)).bind ?_
  rw [if_neg (by decide)]
  exact hplace.bind_ret rfl

variable {r : Chained} (halloc : tableAlloc st.mount d (st.fatBuf .mkdir) 1 = .ok r)
include halloc

/-- No cluster is free: nothing is written. -/
theorem fatMkdirTaken_returns_noRoom (hfailed : r.complete = false) :
    (fatMkdirTaken fuel st name).Returns d
      ((-1, []), st.keepBuf .mkdir (loaded st.mount d (st.fatBuf .mkdir))) [] := by
  rw [fatMkdirTaken, Returns, withFat_exec hwalk.valid]
  rcases allocChain_one_eq_ok halloc with ⟨hfind, -⟩ | ⟨c, -, -, -, rfl⟩
  · rw [hfind]
    rfl
  · simp at hfailed

include hfuel

/-- The table and the new directory are written and the directory has no free slot. -/
theorem fatMkdirTaken_returns_noSlot (hdone : r.complete = true)
    (hnone : ∀ loc, ¬ Named st.mount d st.currentDirCluster freeVerdict loc) : ∃ c,
    r.clusters = [c] ∧ (fatMkdirTaken fuel st name).Returns d
      ((-1, [c]), st.keepBuf .mkdir r.fatBuf)
      (mkdirWrites st.mount st.currentDirCluster c r.fatBuf) := by
  rcases allocChain_one_eq_ok halloc with ⟨-, rfl⟩ | ⟨c, hfind, hc, hne, heq⟩
  · simp at hdone
  · have hv := hwalk.valid
    obtain ⟨h2, hlt, -, -⟩ := fatFindFreeCluster_pos hc hne
    have htotal := st.mount.totalClusters_le
    have hclusters : r.clusters = [c] := by rw [heq]
    have hplace := placeEntry_returns_none hv (hwalk.dirKept_tableAlloc halloc)
      (hwalk.dirLba_unchanged halloc (by
        rw [hclusters]
        exact mkdirWrites_belowOrIn hv st.currentDirCluster c r.fatBuf))
      (newEntry name 0x10 c 0) hfuel hnone
    have hreturns :=
      fatMkdirTaken_returns_of_place hwalk name hfind hne h2 (by omega) (by rw [heq]) hplace
    rw [List.append_nil] at hreturns
    exact ⟨c, hclusters, hreturns⟩

theorem fatMkdirTaken_returns_some (hdone : r.complete = true) {loc : Loc}
    (hnamed : Named st.mount d st.currentDirCluster freeVerdict loc) : ∃ c,
    r.clusters = [c] ∧ (fatMkdirTaken fuel st name).Returns d
      ((0, [c]), st.keepBuf .mkdir r.fatBuf)
      (mkdirWrites st.mount st.currentDirCluster c r.fatBuf ++
        [slotWrite d loc (newEntry name 0x10 c 0)]) := by
  rcases allocChain_one_eq_ok halloc with ⟨-, rfl⟩ | ⟨c, hfind, hc, hne, heq⟩
  · simp at hdone
  · have hv := hwalk.valid
    obtain ⟨h2, hlt, -, -⟩ := fatFindFreeCluster_pos hc hne
    have htotal := st.mount.totalClusters_le
    have hclusters : r.clusters = [c] := by rw [heq]
    have hplace := placeEntry_returns_some hv (hwalk.dirKept_tableAlloc halloc)
      (hwalk.dirLba_unchanged halloc (by
        rw [hclusters]
        exact mkdirWrites_belowOrIn hv st.currentDirCluster c r.fatBuf))
      (newEntry name 0x10 c 0) hfuel hnamed
    exact ⟨c, hclusters,
      fatMkdirTaken_returns_of_place hwalk name hfind hne h2 (by omega) (by rw [heq]) hplace⟩

end Mkdir

theorem fatMkdir_returns_iff {fuel : ℕ} {st : Driver} {name : CString} {d : Disk}
    {result : ℤ × Driver} {writes : List (ℕ × Sector)} :
    (fatMkdir fuel st name).Returns d result writes ↔
      ∃ taken, (fatMkdirTaken fuel st name).Returns d ((result.1, taken), result.2) writes := by
  rw [fatMkdir, returns_bind_iff]
  constructor
  · rintro ⟨⟨⟨r, taken⟩, st'⟩, first, second, hfirst, hsecond, rfl⟩
    injection hsecond with hresult hwrites
    injection hresult with hresult
    subst hresult hwrites
    exact ⟨taken, by rw [List.append_nil]; exact hfirst⟩
  · rintro ⟨taken, h⟩
    exact ⟨_, writes, [], h, rfl, (List.append_nil _).symm⟩

end MasterOS.Fat
