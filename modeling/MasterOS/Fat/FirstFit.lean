/-
# First-fit allocation

In any table that has enough free clusters, the loop of `fat_write` takes the smallest ones
in increasing order and links them into one chain. The data goes to this chain sector by
sector. Nothing is assumed of the table's other entries or of the volume's geometry.
-/

import MasterOS.Fat.Blank

namespace MasterOS.Fat

open MasterOS.Device MasterOS.Device.Prog MasterOS.Math

/-- The free clusters the search goes through, in its order. -/
def freeInOrder (fatBuf : FatBuf) (total : ℕ) : List ℕ :=
  (List.range' 2 total).filter fun c => fatNextCluster fatBuf c == 0

theorem fatFindFreeCluster_eq_head (fatBuf : FatBuf) (total : ℕ) :
    fatFindFreeCluster fatBuf total = (freeInOrder fatBuf total).headD 0 := by
  rw [fatFindFreeCluster, freeInOrder, ← List.head?_filter, List.headD_eq_head?_getD]

/-- Taking the first free cluster leaves the others, in their order. -/
theorem freeInOrder_takeCluster {fatBuf : FatBuf} {total prev c : ℕ} {rest : List ℕ}
    (hfree : freeInOrder fatBuf total = c :: rest) (hc : c < 4096)
    (hprev : prev ≠ 0 → fatNextCluster fatBuf prev ≠ 0) :
    freeInOrder (takeCluster fatBuf prev c) total = rest := by
  have hnodup : (c :: rest).Nodup := by
    rw [← hfree]
    exact List.Nodup.filter _ List.nodup_range'
  have hmem : c ∈ freeInOrder fatBuf total := by
    rw [hfree]
    exact List.mem_cons_self
  obtain ⟨hrange, -⟩ := List.mem_filter.mp hmem
  have h2 : 2 ≤ c := (List.mem_range'_1.mp hrange).1
  have hsplit : freeInOrder (takeCluster fatBuf prev c) total =
      (freeInOrder fatBuf total).filter fun x => x != c := by
    rw [freeInOrder, freeInOrder, List.filter_filter]
    refine List.filter_congr fun x _ => ?_
    rw [fatNextCluster_takeCluster, Nat.mod_eq_of_lt hc]
    by_cases hx : x = c
    · simp [hx]
    · rw [if_neg hx]
      by_cases hlink : prev ≠ 0 ∧ x = prev
      · have hused := hprev hlink.1
        rw [← hlink.2] at hused
        rw [if_pos hlink]
        rw [beq_eq_false_iff_ne.mpr (show c ≠ 0 by omega), beq_eq_false_iff_ne.mpr hused,
          Bool.and_false]
      · rw [if_neg hlink]
        simp [hx]
  obtain ⟨hnotMem, -⟩ := List.nodup_cons.mp hnodup
  rw [hsplit, hfree, List.filter_cons_of_neg (by simp)]
  refine List.filter_eq_self.mpr fun x hx => ?_
  have hne : x ≠ c := fun heq => hnotMem (heq ▸ hx)
  simp [hne]

/-- An allocation that is complete took the first free clusters of the table. -/
theorem allocChain_clusters {total n prev : ℕ} {fatBuf : FatBuf} {r : Chained}
    (h : allocChain total n prev fatBuf = .ok r) (hdone : r.complete = true)
    (hlt : ∀ x ∈ r.clusters, x < 4096) (hprev : prev ≠ 0 → fatNextCluster fatBuf prev ≠ 0) :
    r.clusters = (freeInOrder fatBuf total).take n := by
  induction n generalizing prev fatBuf r with
  | zero =>
      injection h with h
      rw [← h, List.take_zero]
  | succ n ih =>
      rcases allocChain_succ_eq_ok h with ⟨-, rfl⟩ | ⟨c, rest, hc, hne, hrest, rfl⟩
      · exact Bool.noConfusion hdone
      · have hhead := fatFindFreeCluster_eq_head fatBuf total
        obtain ⟨later, hfree⟩ : ∃ later, freeInOrder fatBuf total = c :: later := by
          cases hcase : freeInOrder fatBuf total with
          | nil =>
              rw [hcase, hc] at hhead
              exact absurd hhead hne
          | cons x later =>
              rw [hcase, hc] at hhead
              exact ⟨later, by rw [hhead]; rfl⟩
        have hself : fatNextCluster (takeCluster fatBuf prev c) c ≠ 0 := by
          rw [fatNextCluster_takeCluster, if_pos rfl]
          decide
        have hclt := hlt c List.mem_cons_self
        dsimp only
        rw [ih hrest hdone (fun x hx => hlt x (List.mem_cons_of_mem _ hx)) fun _ => hself,
          freeInOrder_takeCluster hfree hclt hprev, hfree, List.take_succ_cons]

/-- The entry of a cluster an allocation took, or links behind: the end mark, a link to a
cluster it took, or still what the last link left. -/
theorem allocChain_entry {total n prev : ℕ} {fatBuf : FatBuf} {r : Chained}
    (h : allocChain total n prev fatBuf = .ok r) {x : ℕ} (hx : x ∈ r.clusters ∨ x = prev) :
    fatNextCluster r.fatBuf x = 0xFFF ∨ (∃ y ∈ r.clusters, fatNextCluster r.fatBuf x = y % 4096) ∨
      x ∉ r.clusters ∧ fatNextCluster r.fatBuf x = fatNextCluster fatBuf x := by
  induction n generalizing prev fatBuf r with
  | zero =>
      injection h with h
      rw [← h]
      exact Or.inr (Or.inr ⟨List.not_mem_nil, rfl⟩)
  | succ n ih =>
      rcases allocChain_succ_eq_ok h with ⟨-, rfl⟩ | ⟨c, rest, hc, hne, hrest, rfl⟩
      · exact Or.inr (Or.inr ⟨List.not_mem_nil, rfl⟩)
      · by_cases hlater : x ∈ rest.clusters ∨ x = c
        · rcases ih hrest hlater with hend | ⟨y, hy, hlink⟩ | ⟨hnot, hkept⟩
          · exact Or.inl hend
          · exact Or.inr (Or.inl ⟨y, List.mem_cons_of_mem _ hy, hlink⟩)
          · obtain rfl := hlater.resolve_left hnot
            rw [fatNextCluster_takeCluster, if_pos rfl] at hkept
            exact Or.inl hkept
        · obtain ⟨hnot, hxc⟩ := not_or.mp hlater
          have hout : x ∉ c :: rest.clusters := by
            rw [List.mem_cons]
            exact not_or.mpr ⟨hxc, hnot⟩
          obtain rfl := hx.resolve_left hout
          have hkept := allocChain_other hrest hnot fun _ => hxc
          rw [fatNextCluster_takeCluster, if_neg hxc] at hkept
          by_cases h0 : x = 0
          · rw [if_neg fun hlink => hlink.1 h0] at hkept
            exact Or.inr (Or.inr ⟨hout, hkept⟩)
          · rw [if_pos ⟨h0, rfl⟩] at hkept
            exact Or.inr (Or.inl ⟨c, List.mem_cons_self, hkept⟩)

/-! ## The writes of a file in order -/

theorem fileWrites_eq_map {m : Mount} (hspc : 1 ≤ m.spc) (data : ℕ → UInt8) (size i : ℕ)
    (l : List ℕ) : fileWrites m data size i l =
      (List.range' (i * m.spc) (min (l.length * m.spc) (sectorsFor size - i * m.spc))).map
        fun j => (m.clusterLba (l.getD (j / m.spc - i) 0) (j % m.spc), fileSector data size j) := by
  induction l generalizing i with
  | nil => simp [fileWrites]
  | cons c l ih =>
      have hspan : (i + 1) * m.spc = i * m.spc + m.spc := by rw [Nat.add_mul, Nat.one_mul]
      have hlen : (l.length + 1) * m.spc = l.length * m.spc + m.spc := by
        rw [Nat.add_mul, Nat.one_mul]
      have hcount : min ((c :: l).length * m.spc) (sectorsFor size - i * m.spc) =
          min m.spc (sectorsFor size - i * m.spc) +
            min (l.length * m.spc) (sectorsFor size - (i + 1) * m.spc) := by
        rw [List.length_cons, hlen, hspan]
        omega
      rw [fileWrites, ih (i + 1), hcount, ← List.range'_append_1, List.map_append]
      congr 1
      · rw [List.range'_eq_map_range, List.map_map]
        refine List.map_congr_left fun k hk => ?_
        have hlt : k < m.spc := by
          have := List.mem_range.mp hk
          omega
        have hdiv : (i * m.spc + k) / m.spc = i := by
          rw [Nat.mul_comm, Nat.mul_add_div (by omega), Nat.div_eq_of_lt hlt, Nat.add_zero]
        have hmod : (i * m.spc + k) % m.spc = k := by
          rw [Nat.mul_comm, Nat.mul_add_mod, Nat.mod_eq_of_lt hlt]
        rw [Function.comp_apply, hdiv, hmod, Nat.sub_self, List.getD_cons_zero]
      · -- the rest is empty, or starts behind the whole of this cluster
        by_cases hfull : m.spc ≤ sectorsFor size - i * m.spc
        · rw [Nat.min_eq_left hfull, ← hspan]
          refine List.map_congr_left fun j hj => ?_
          have hge : i + 1 ≤ j / m.spc :=
            (Nat.le_div_iff_mul_le (by omega)).mpr (List.mem_range'_1.mp hj).1
          rw [show j / m.spc - i = j / m.spc - (i + 1) + 1 by omega, List.getD_cons_succ]
        · rw [show sectorsFor size - (i + 1) * m.spc = 0 by omega, Nat.min_zero, List.range'_zero,
            List.range'_zero, List.map_nil, List.map_nil]

/-- A file with as many clusters as it needs has each of its sectors written once. -/
theorem fileWrites_of_length {m : Mount} (hspc : 1 ≤ m.spc) (data : ℕ → UInt8) {size : ℕ}
    {l : List ℕ} (hlen : l.length = clustersFor m size) : fileWrites m data size 0 l =
      (List.range (sectorsFor size)).map
        fun j => (m.clusterLba (l.getD (j / m.spc) 0) (j % m.spc), fileSector data size j) := by
  have hfit := (le_mul_iff_clustersFor_le hspc).mp (le_refl (clustersFor m size))
  have henough : sectorsFor size ≤ l.length * m.spc := by
    rw [hlen]
    rw [show clustersFor m size * (512 * m.spc) = 512 * (clustersFor m size * m.spc) by ring] at hfit
    unfold sectorsFor
    omega
  rw [fileWrites_eq_map hspc, Nat.zero_mul, Nat.sub_zero, Nat.min_eq_right henough,
    List.range_eq_range']
  rfl

/-! ## The loop -/

/-- What the loop leaves: the first free clusters in increasing order, linked from the first
to the last, every other entry as it was, and each sector of the file written in its place. -/
structure FirstFit (m : Mount) (fatBuf : FatBuf) (data : ℕ → UInt8) (size : ℕ)
    (alloc : Allocation) (writes : List (ℕ × Sector)) : Prop where
  complete : alloc.complete = true
  taken : alloc.taken = (freeInOrder fatBuf m.totalClusters).take (clustersFor m size)
  length : alloc.taken.length = clustersFor m size
  chain : Chain (fatNextCluster alloc.fatBuf) (DataCluster m) (· = 0xFFF) alloc.firstCluster
    alloc.taken
  other : ∀ x ∉ alloc.taken, fatNextCluster alloc.fatBuf x = fatNextCluster fatBuf x
  writes : writes = (List.range (sectorsFor size)).map fun j =>
    onDrive (m.clusterLba (alloc.taken.getD (j / m.spc) 0) (j % m.spc), fileSector data size j)

/-- **The allocation loop of `fat_write` builds a first-fit chain**, in any table with enough
free data clusters. -/
theorem writeClusters_firstFit {m : Mount} (hspc : 1 ≤ m.spc) (fatBuf : FatBuf)
    (data : ℕ → UInt8) {size : ℕ} (hsize : 0 < size)
    (hroom : clustersFor m size ≤ (freeClusters m (fatNextCluster fatBuf)).card) (more : ℕ)
    (d : Disk) : ∃ alloc writes,
      (writeClusters m m.totalClusters data size (clustersFor m size + 1 + more) size 0 0 fatBuf
        []).Returns d alloc writes ∧ FirstFit m fatBuf data size alloc writes := by
  obtain ⟨l, fatBuf', halloc, hspec⟩ := (window_dataCluster m).allocChain_of_room hroom
    (fun h => absurd rfl h)
  have hloop := writeClusters_onDrive hspc data fatBuf
    (show clustersFor m size < clustersFor m size + 1 + more by omega) d
  rw [halloc] at hloop
  dsimp only at hloop
  have hpos : 0 < clustersFor m size := by
    by_contra hzero
    have hnone := (le_mul_iff_clustersFor_le hspc).mp (show clustersFor m size ≤ 0 by omega)
    omega
  have hne : l ≠ [] := by
    intro hnil
    rw [← hspec.length, hnil] at hpos
    exact absurd hpos (by decide)
  have hdata {x : ℕ} (hx : x ∈ l) : DataCluster m x := (hspec.free x hx).1
  have hclusters := allocChain_clusters halloc rfl (fun x hx => (hdata hx).lt)
    (fun h => absurd rfl h)
  have hend : ∀ x ∈ l, EndMark (fatNextCluster fatBuf' x) → fatNextCluster fatBuf' x = 0xFFF := by
    intro x hx hmark
    rcases allocChain_entry halloc (Or.inl hx) with hlast | ⟨y, hy, hlink⟩ | ⟨hnot, -⟩
    · exact hlast
    · have hle := (hdata hy).2.1
      dsimp only at hlink
      rw [hlink, Nat.mod_eq_of_lt (hdata hy).lt] at hmark
      unfold EndMark at hmark
      omega
    · exact absurd hx hnot
  have hother : ∀ x ∉ l, fatNextCluster fatBuf' x = fatNextCluster fatBuf x :=
    fun x hx => allocChain_other halloc hx fun h => absurd rfl h
  refine ⟨_, _, hloop, rfl, hclusters, hspec.length, ?_, hother, ?_⟩
  · exact (hspec.chain hne).mono_ended hend
  · rw [fileWrites_of_length hspc data hspec.length, List.map_map]
    rfl

/-- A table in which cluster 3 is in use. -/
def usedTable : FatBuf := fun k => if k = 4 then 0xF0 else if k = 5 then 0xFF else 0

/-- There the clusters of a file of 600 bytes are 2 and 4. -/
theorem writeClusters_firstFit_usedTable : ∃ alloc writes,
    (writeClusters smallMount smallMount.totalClusters (fun _ => 7) 600
      (clustersFor smallMount 600 + 1 + 0) 600 0 0 usedTable []).Returns blank alloc writes ∧
    FirstFit smallMount usedTable (fun _ => 7) 600 alloc writes ∧ alloc.taken = [2, 4] := by
  have hfree : fatNextCluster usedTable 2 = 0 ∧ fatNextCluster usedTable 4 = 0 := by decide +kernel
  have hroom : clustersFor smallMount 600 ≤
      (freeClusters smallMount (fatNextCluster usedTable)).card :=
    Finset.one_lt_card.mpr ⟨2, mem_freeClusters.mpr ⟨by decide, hfree.1⟩, 4,
      mem_freeClusters.mpr ⟨by decide, hfree.2⟩, by decide⟩
  obtain ⟨alloc, writes, hreturns, hfirst⟩ := writeClusters_firstFit (m := smallMount) (by decide)
    usedTable (fun _ => 7) (by decide) hroom 0 blank
  exact ⟨alloc, writes, hreturns, hfirst, hfirst.taken.trans (by decide +kernel)⟩

end MasterOS.Fat
