/-
# Freeing and allocating chains

What the two loops over the table do to it. The freeing loop zeroes exactly the
entries of a chain. The allocation loop takes the free entries one by one from the
low end and links them; `allocChain` is that loop without the data it writes on the
way, and when enough data clusters are free it builds a chain over free ones.

The data of a file goes to the sectors of its chain in order, sector by sector.
-/

import MasterOS.Fat.Steps
import Mathlib.Data.Finset.Card

namespace MasterOS.Fat

open MasterOS.Device MasterOS.Device.Prog MasterOS.Math

/-! ## Freeing -/

/-- The table after the entries of `l` were zeroed. -/
def freeList (fatBuf : FatBuf) : List ℕ → FatBuf
  | [] => fatBuf
  | c :: l => freeList (fatSetCluster fatBuf c 0x000) l

theorem fatNextCluster_freeList (fatBuf : FatBuf) (l : List ℕ) (x : ℕ) :
    fatNextCluster (freeList fatBuf l) x = if x ∈ l then 0 else fatNextCluster fatBuf x := by
  induction l generalizing fatBuf with
  | nil => rfl
  | cons c l ih =>
      rw [freeList, ih, fatNextCluster_fatSetCluster]
      by_cases hx : x = c
      · subst hx
        simp
      · simp [hx]

theorem freeList_congr {b b' : FatBuf} (l : List ℕ) {o : ℕ} (h : b' o = b o) :
    freeList b' l o = freeList b l o := by
  induction l generalizing b b' with
  | nil => exact h
  | cons c l ih => exact ih (fatSetCluster_congr c 0x000 h)

/-- Bytes behind the entries of the list are left alone. -/
theorem freeList_of_behind {fatBuf : FatBuf} {l : List ℕ} {o : ℕ}
    (h : ∀ c ∈ l, c + c / 2 + 1 < o) : freeList fatBuf l o = fatBuf o := by
  induction l generalizing fatBuf with
  | nil => rfl
  | cons c l ih =>
      have hc := h c List.mem_cons_self
      rw [freeList, ih fun x hx => h x (List.mem_cons_of_mem _ hx),
        fatSetCluster_of_ne _ (by omega) (by omega)]

/-- The freeing loop over a chain. It reads each link before it zeroes the entry,
and no later link goes back to one already zeroed. -/
theorem freeChain_eq {m : Mount} {fatBuf : FatBuf} {c : ℕ} {l : List ℕ}
    (h : Chain (fatNextCluster fatBuf) (DataCluster m) EndMark c l) {fuel : ℕ}
    (hfuel : l.length < fuel) : freeChain fuel fatBuf c = .ret (freeList fatBuf l) := by
  induction l generalizing fatBuf c fuel with
  | nil =>
      obtain ⟨rest, heq⟩ := h.eq_cons
      exact absurd heq (by simp)
  | cons x l ih =>
      obtain ⟨fuel, rfl⟩ : ∃ n, fuel = n + 1 := ⟨fuel - 1, by omega⟩
      have hok := h.ok_head
      have hlt := hok.lt
      have hnodup := h.nodup (not_dataCluster_of_endMark m)
      rw [freeChain, if_pos ⟨hok.1, hok.2.1⟩, loadEntry_of_lt (by omega), ret_bind]
      cases h with
      | last _ hend =>
          obtain ⟨fuel, rfl⟩ : ∃ n, fuel = n + 1 :=
            ⟨fuel - 1, by simp only [List.length_cons, List.length_nil] at hfuel; omega⟩
          unfold EndMark at hend
          rw [freeChain, if_neg (by omega)]
          rfl
      | link _ hrest =>
          refine ih (hrest.congr fun y hy => ?_) (by simp only [List.length_cons] at hfuel; omega)
          refine fatNextCluster_fatSetCluster_of_ne fatBuf 0 fun hyc => ?_
          exact (List.nodup_cons.mp hnodup).1 (hyc ▸ hy)

/-- The freeing loop leaves at once from a value that is no data cluster. -/
theorem freeChain_zero (fatBuf : FatBuf) {fuel : ℕ} (hfuel : 0 < fuel) :
    freeChain fuel fatBuf 0 = .ret fatBuf := by
  obtain ⟨fuel, rfl⟩ : ∃ n, fuel = n + 1 := ⟨fuel - 1, by omega⟩
  rfl

/-! ## Allocating -/

/-- An initial segment of the clusters the search goes through, small enough that a
table entry can name each of them. -/
structure Window (total : ℕ) (ok : ℕ → Prop) : Prop where
  two_le : ∀ c, ok c → 2 ≤ c
  lt_total : ∀ c, ok c → c < total + 2
  lt : ∀ c, ok c → c < 4096
  down : ∀ c c', ok c' → 2 ≤ c → c ≤ c' → ok c

/-- The clusters of a segment that a table marks free. -/
def freeIn (ok : ℕ → Prop) [DecidablePred ok] (next : ℕ → ℕ) : Finset ℕ :=
  (Finset.range 4096).filter fun c => ok c ∧ next c = 0

theorem Window.mem_freeIn {total : ℕ} {ok : ℕ → Prop} [DecidablePred ok] (hw : Window total ok)
    {next : ℕ → ℕ} {c : ℕ} : c ∈ freeIn ok next ↔ ok c ∧ next c = 0 := by
  rw [freeIn, Finset.mem_filter, Finset.mem_range]
  exact ⟨fun h => h.2, fun h => ⟨hw.lt c h.1, h⟩⟩

theorem DataCluster.lt_total {m : Mount} {c : ℕ} (h : DataCluster m c) :
    c < m.totalClusters + 2 := by
  have := h.2.2
  unfold Loaded at this
  unfold Mount.totalClusters
  omega

/-- The data clusters are such a segment. -/
theorem window_dataCluster (m : Mount) : Window m.totalClusters (DataCluster m) where
  two_le _ h := h.1
  lt_total _ h := h.lt_total
  lt _ h := h.lt
  down c c' h h2 hle := by
    refine ⟨h2, le_trans hle h.2.1, ?_⟩
    have := h.2.2
    unfold Loaded at this ⊢
    omega

/-- The data clusters that a table marks free. -/
abbrev freeClusters (m : Mount) (next : ℕ → ℕ) : Finset ℕ := freeIn (DataCluster m) next

theorem mem_freeClusters {m : Mount} {next : ℕ → ℕ} {c : ℕ} :
    c ∈ freeClusters m next ↔ DataCluster m c ∧ next c = 0 :=
  (window_dataCluster m).mem_freeIn

/-- Taking a free cluster, behind an allocated one or as the first. -/
def takeCluster (fatBuf : FatBuf) (prev c : ℕ) : FatBuf :=
  fatSetCluster (if prev ≠ 0 then fatSetCluster fatBuf prev c else fatBuf) c 0xFFF

/-- What the allocation of a chain leaves: whether it ran to its end, the clusters it
took, and the table. -/
structure Chained where
  complete : Bool
  clusters : List ℕ
  fatBuf : FatBuf

/-- The allocation loop of `fat_write` without the data: take `n` clusters and link
them behind `prev`, where 0 stands for no cluster. -/
def allocChain (total : ℕ) : (n prev : ℕ) → FatBuf → Except Fault Chained
  | 0, _, fatBuf => .ok ⟨true, [], fatBuf⟩
  | n + 1, prev, fatBuf =>
      let c := fatFindFreeCluster fatBuf total
      if InBuf (if c = 0 then total + 1 else c) then
        if c = 0 then .ok ⟨false, [], fatBuf⟩
        else (allocChain total n c (takeCluster fatBuf prev c)).map fun rest =>
          ⟨rest.complete, c :: rest.clusters, rest.fatBuf⟩
      else .error .outOfBounds

/-- A search that returns 0 found no free cluster. -/
theorem eq_zero_of_findFreeCluster {fatBuf : FatBuf} {total : ℕ}
    (h : findFreeCluster fatBuf total = .ret 0) : fatFindFreeCluster fatBuf total = 0 := by
  by_contra hne
  unfold findFreeCluster at h
  dsimp only at h
  rw [if_neg hne] at h
  split_ifs at h
  injection h with h
  exact hne h

/-- One round of the allocation: the search leaves the array, finds nothing, or finds
a cluster to go on from. -/
theorem allocChain_succ (total n prev : ℕ) (fatBuf : FatBuf) :
    (findFreeCluster fatBuf total = .stop .outOfBounds ∧
      allocChain total (n + 1) prev fatBuf = .error .outOfBounds) ∨
    (findFreeCluster fatBuf total = .ret 0 ∧
      allocChain total (n + 1) prev fatBuf = .ok ⟨false, [], fatBuf⟩) ∨
    ∃ c, findFreeCluster fatBuf total = .ret c ∧ fatFindFreeCluster fatBuf total = c ∧ c ≠ 0 ∧
      allocChain total (n + 1) prev fatBuf =
        (allocChain total n c (takeCluster fatBuf prev c)).map fun rest =>
          ⟨rest.complete, c :: rest.clusters, rest.fatBuf⟩ := by
  rw [allocChain, findFreeCluster]
  generalize fatFindFreeCluster fatBuf total = c
  by_cases hin : InBuf (if c = 0 then total + 1 else c)
  · rw [if_pos hin, if_pos hin]
    by_cases hzero : c = 0
    · rw [if_pos hzero, hzero]
      exact Or.inr (Or.inl ⟨rfl, rfl⟩)
    · rw [if_neg hzero]
      exact Or.inr (Or.inr ⟨c, rfl, rfl, hzero, rfl⟩)
  · rw [if_neg hin, if_neg hin]
    exact Or.inl ⟨rfl, rfl⟩

theorem Mount.totalClusters_le (m : Mount) : m.totalClusters ≤ 6144 := by
  have := m.fatSecs_le
  unfold Mount.totalClusters
  omega

/-- The search returns a free cluster of a segment if there is one. -/
theorem Window.find_mem {total : ℕ} {ok : ℕ → Prop} [DecidablePred ok] (hw : Window total ok)
    {fatBuf : FatBuf} {x : ℕ} (hx : x ∈ freeIn ok (fatNextCluster fatBuf)) :
    fatFindFreeCluster fatBuf total ∈ freeIn ok (fatNextCluster fatBuf) := by
  obtain ⟨hok, hzero⟩ := hw.mem_freeIn.mp hx
  obtain ⟨hne, hle⟩ := fatFindFreeCluster_le (hw.two_le x hok) (hw.lt_total x hok) hzero
  obtain ⟨h2, -, hfree, -⟩ := fatFindFreeCluster_pos rfl hne
  exact hw.mem_freeIn.mpr ⟨hw.down _ x hok h2 hle, hfree⟩

theorem fatNextCluster_takeCluster (fatBuf : FatBuf) (prev c x : ℕ) :
    fatNextCluster (takeCluster fatBuf prev c) x =
      if x = c then 0xFFF else if prev ≠ 0 ∧ x = prev then c % 4096
      else fatNextCluster fatBuf x := by
  unfold takeCluster
  rw [fatNextCluster_fatSetCluster]
  by_cases hx : x = c
  · rw [if_pos hx, if_pos hx]
  · rw [if_neg hx, if_neg hx]
    by_cases hprev : prev ≠ 0
    · rw [if_pos hprev, fatNextCluster_fatSetCluster]
      simp only [hprev, ne_eq, not_false_eq_true, true_and]
    · rw [if_neg hprev, if_neg fun h => hprev h.1]

/-- Taking a free cluster removes it from the free ones and nothing else. -/
theorem Window.freeIn_takeCluster {total : ℕ} {ok : ℕ → Prop} [DecidablePred ok]
    (hw : Window total ok) {fatBuf : FatBuf} {prev c : ℕ} (h2 : 2 ≤ c) (hc : c < 4096)
    (hprev : prev ≠ 0 → fatNextCluster fatBuf prev ≠ 0) :
    freeIn ok (fatNextCluster (takeCluster fatBuf prev c)) =
      (freeIn ok (fatNextCluster fatBuf)).erase c := by
  ext x
  rw [Finset.mem_erase, hw.mem_freeIn, hw.mem_freeIn, fatNextCluster_takeCluster,
    Nat.mod_eq_of_lt hc]
  by_cases hx : x = c
  · simp [hx]
  · rw [if_neg hx]
    by_cases hlink : prev ≠ 0 ∧ x = prev
    · rw [if_pos hlink]
      have hne := hprev hlink.1
      rw [← hlink.2] at hne
      constructor
      · rintro ⟨-, hzero⟩
        omega
      · rintro ⟨-, -, hzero⟩
        exact absurd hzero hne
    · rw [if_neg hlink]
      simp [hx]

/-- The clusters an allocation took and the table it left: a chain over clusters of a
segment that were free, and every other entry as it was. -/
structure AllocSpec (ok : ℕ → Prop) (fatBuf : FatBuf) (prev n : ℕ) (l : List ℕ)
    (fatBuf' : FatBuf) : Prop where
  length : l.length = n
  free : ∀ x ∈ l, ok x ∧ fatNextCluster fatBuf x = 0
  chain : l ≠ [] → Chain (fatNextCluster fatBuf') ok EndMark (l.headD 0) l
  linked : ok prev → EndMark (fatNextCluster fatBuf prev) →
    Chain (fatNextCluster fatBuf') ok EndMark prev (prev :: l)
  other : ∀ x ∉ l, x ≠ prev → fatNextCluster fatBuf' x = fatNextCluster fatBuf x

/-- **Allocation with enough room builds a chain over free clusters.** -/
theorem Window.allocChain_of_room {total : ℕ} {ok : ℕ → Prop} [DecidablePred ok]
    (hw : Window total ok) {n prev : ℕ} {fatBuf : FatBuf}
    (hroom : n ≤ (freeIn ok (fatNextCluster fatBuf)).card)
    (hprev : prev ≠ 0 → fatNextCluster fatBuf prev ≠ 0) :
    ∃ l fatBuf', allocChain total n prev fatBuf = .ok ⟨true, l, fatBuf'⟩ ∧
      AllocSpec ok fatBuf prev n l fatBuf' := by
  induction n generalizing prev fatBuf with
  | zero =>
      refine ⟨[], fatBuf, rfl, rfl, fun x hx => ?_, fun h => absurd rfl h, fun hok hend => ?_,
        fun x _ _ => rfl⟩
      · simp at hx
      · exact .last hok hend
  | succ n ih =>
      obtain ⟨x, hx⟩ := Finset.card_pos.mp (lt_of_lt_of_le (Nat.succ_pos n) hroom)
      have hmem := hw.find_mem hx
      set c := fatFindFreeCluster fatBuf total with hcdef
      obtain ⟨hok, hzero⟩ := hw.mem_freeIn.mp hmem
      have hlt := hw.lt c hok
      have h2 := hw.two_le c hok
      have hfree := hw.freeIn_takeCluster h2 hlt hprev
      have hself : fatNextCluster (takeCluster fatBuf prev c) c = 0xFFF := by
        rw [fatNextCluster_takeCluster, if_pos rfl]
      obtain ⟨l, fatBuf', halloc, hspec⟩ := @ih c (takeCluster fatBuf prev c)
        (by rw [hfree, Finset.card_erase_of_mem hmem]; omega) fun _ => by rw [hself]; decide
      have hstep : allocChain total (n + 1) prev fatBuf = .ok ⟨true, c :: l, fatBuf'⟩ := by
        have hin : InBuf c := by unfold InBuf; omega
        have hc0 : c ≠ 0 := by omega
        rw [allocChain]
        simp only [← hcdef, if_neg hc0, if_pos hin, halloc]
        rfl
      -- the clusters taken later were free once `c` was taken, so they are not `c`
      have hlater {y : ℕ} (hy : y ∈ l) : y ≠ c ∧ ok y ∧ fatNextCluster fatBuf y = 0 := by
        have hmem' := hw.mem_freeIn.mpr (hspec.free y hy)
        rw [hfree, Finset.mem_erase, hw.mem_freeIn] at hmem'
        exact hmem'
      have hchain : Chain (fatNextCluster fatBuf') ok EndMark c (c :: l) :=
        hspec.linked hok (by rw [hself]; exact (by decide : 0xFF8 ≤ 0xFFF))
      refine ⟨c :: l, fatBuf', hstep, ?_, ?_, fun _ => hchain, fun hpok hpend => ?_, ?_⟩
      · rw [List.length_cons, hspec.length]
      · intro y hy
        rcases List.mem_cons.mp hy with rfl | hy
        · exact ⟨hok, hzero⟩
        · exact (hlater hy).2
      · have hp0 : prev ≠ 0 := by
          have := hw.two_le prev hpok
          omega
        have hpc : prev ≠ c := fun heq => hprev hp0 (heq ▸ hzero)
        have hpl : prev ∉ l := fun hpl => hprev hp0 (hlater hpl).2.2
        refine .link hpok ?_
        rw [hspec.other prev hpl hpc, fatNextCluster_takeCluster, if_neg hpc, if_pos ⟨hp0, rfl⟩,
          Nat.mod_eq_of_lt hlt]
        exact hchain
      · intro y hy hyprev
        obtain ⟨hyc, hyl⟩ := not_or.mp (mt List.mem_cons.mpr hy)
        rw [hspec.other y hyl hyc, fatNextCluster_takeCluster, if_neg hyc,
          if_neg fun h => hyprev h.2]

/-- What one round of an allocation that ends does. -/
theorem allocChain_succ_eq_ok {total n prev : ℕ} {fatBuf : FatBuf} {r : Chained}
    (h : allocChain total (n + 1) prev fatBuf = .ok r) :
    fatFindFreeCluster fatBuf total = 0 ∧ r = ⟨false, [], fatBuf⟩ ∨
      ∃ c rest, fatFindFreeCluster fatBuf total = c ∧ c ≠ 0 ∧
        allocChain total n c (takeCluster fatBuf prev c) = .ok rest ∧
        r = ⟨rest.complete, c :: rest.clusters, rest.fatBuf⟩ := by
  rcases allocChain_succ total n prev fatBuf with ⟨-, hr⟩ | ⟨hfind, hr⟩ | ⟨c, -, hc, hne, hr⟩
  · rw [hr] at h
    injection h
  · rw [hr] at h
    injection h with h
    exact Or.inl ⟨eq_zero_of_findFreeCluster hfind, h.symm⟩
  · rw [hr] at h
    cases hrest : allocChain total n c (takeCluster fatBuf prev c) with
    | error fault =>
        rw [hrest] at h
        injection h
    | ok rest =>
        rw [hrest] at h
        injection h with h
        exact Or.inr ⟨c, rest, hc, hne, hrest, h.symm⟩

/-- In any table, the clusters an allocation takes lie in the range searched and were
free, or are the cluster it links behind. -/
theorem allocChain_mem {total n prev : ℕ} {fatBuf : FatBuf} {r : Chained}
    (h : allocChain total n prev fatBuf = .ok r) {x : ℕ} (hx : x ∈ r.clusters) :
    2 ≤ x ∧ x < total + 2 ∧ (fatNextCluster fatBuf x = 0 ∨ x = prev) := by
  induction n generalizing prev fatBuf r with
  | zero =>
      injection h with h
      rw [← h] at hx
      simp at hx
  | succ n ih =>
      rcases allocChain_succ_eq_ok h with ⟨-, rfl⟩ | ⟨c, rest, hc, hne, hrest, rfl⟩
      · simp at hx
      · obtain ⟨h2, hlt, hfree, -⟩ := fatFindFreeCluster_pos hc hne
        rcases List.mem_cons.mp hx with rfl | hx
        · exact ⟨h2, hlt, Or.inl hfree⟩
        · obtain ⟨hx2, hxlt, hxfree⟩ := ih hrest hx
          refine ⟨hx2, hxlt, ?_⟩
          rw [fatNextCluster_takeCluster] at hxfree
          split_ifs at hxfree with hxc hxprev
          · exact Or.inl (hxc ▸ hfree)
          · exact Or.inr hxprev.2
          · exact Or.inl (hxfree.resolve_right hxc)

/-- In any table, an allocation changes only entries it took or links behind. -/
theorem allocChain_other {total n prev : ℕ} {fatBuf : FatBuf} {r : Chained}
    (h : allocChain total n prev fatBuf = .ok r) {x : ℕ} (hx : x ∉ r.clusters)
    (hprev : prev ≠ 0 → x ≠ prev) :
    fatNextCluster r.fatBuf x = fatNextCluster fatBuf x := by
  induction n generalizing prev fatBuf r with
  | zero =>
      injection h with h
      rw [← h]
  | succ n ih =>
      rcases allocChain_succ_eq_ok h with ⟨-, rfl⟩ | ⟨c, rest, -, -, hrest, rfl⟩
      · rfl
      · obtain ⟨hxc, hxl⟩ := not_or.mp (mt List.mem_cons.mpr hx)
        rw [ih hrest hxl fun _ => hxc, fatNextCluster_takeCluster, if_neg hxc,
          if_neg fun h => hprev h.1 h.2]

/-! ## The data of a file -/

/-- The sectors a file of this size takes. -/
def sectorsFor (size : ℕ) : ℕ := (size + 511) / 512

/-- The clusters a file of this size takes. -/
def clustersFor (m : Mount) (size : ℕ) : ℕ := (size + (512 * m.spc - 1)) / (512 * m.spc)

/-- Sector `t` of a file, padded with zeros. -/
def fileSector (data : ℕ → UInt8) (size t : ℕ) : Sector :=
  .ofBytes fun k => if 512 * t + k < size then data (512 * t + k) else 0

/-- The writes of a file's data to the clusters `l`, the first of which is cluster
`i` of the file. -/
def fileWrites (m : Mount) (data : ℕ → UInt8) (size : ℕ) : (i : ℕ) → List ℕ → List (ℕ × Sector)
  | _, [] => []
  | i, c :: l =>
      (List.range (min m.spc (sectorsFor size - i * m.spc))).map
          (fun k => (m.clusterLba c k, fileSector data size (i * m.spc + k))) ++
        fileWrites m data size (i + 1) l

theorem mem_fileWrites {m : Mount} {data : ℕ → UInt8} {size i : ℕ} {l : List ℕ}
    {w : ℕ × Sector} : w ∈ fileWrites m data size i l ↔
      ∃ j c k, l[j]? = some c ∧ k < m.spc ∧ (i + j) * m.spc + k < sectorsFor size ∧
        w = (m.clusterLba c k, fileSector data size ((i + j) * m.spc + k)) := by
  induction l generalizing i with
  | nil => simp [fileWrites]
  | cons c l ih =>
      rw [fileWrites, List.mem_append, ih, List.mem_map]
      constructor
      · rintro (⟨k, hk, rfl⟩ | ⟨j, c', k, hj, hk, hlt, rfl⟩)
        · rw [List.mem_range] at hk
          exact ⟨0, c, k, rfl, by omega, by rw [Nat.add_zero]; omega, rfl⟩
        · refine ⟨j + 1, c', k, hj, hk, ?_, ?_⟩
          · rw [show i + (j + 1) = i + 1 + j by omega]
            exact hlt
          · rw [show i + (j + 1) = i + 1 + j by omega]
      · rintro ⟨j, c', k, hj, hk, hlt, rfl⟩
        cases j with
        | zero =>
            injection hj with hj
            rw [Nat.add_zero] at hlt
            refine Or.inl ⟨k, List.mem_range.mpr (by omega), ?_⟩
            rw [Nat.add_zero, hj]
        | succ j =>
            refine Or.inr ⟨j, c', k, hj, hk, ?_, ?_⟩
            · rw [show i + 1 + j = i + (j + 1) by omega]
              exact hlt
            · rw [show i + 1 + j = i + (j + 1) by omega]

/-- On a valid volume the drive gets the writes of a file at the addresses they are for. -/
theorem map_onDrive_fileWrites {m : Mount} (hv : m.Valid) (data : ℕ → UInt8) (size i : ℕ)
    {l : List ℕ} (hl : ∀ c ∈ l, 2 ≤ c ∧ c < 6146) :
    (fileWrites m data size i l).map onDrive = fileWrites m data size i l := by
  rw [List.map_congr_left (g := id) fun w hw => ?_, List.map_id]
  obtain ⟨j, c, k, hj, hk, -, rfl⟩ := mem_fileWrites.mp hw
  obtain ⟨h2, hlt⟩ := hl c (List.mem_of_getElem? hj)
  exact onDrive_of_lt (hv.clusterLba_lt h2 hlt hk)

/-- The sector loop of `fat_write` over one cluster, from sector `sct` of it on. -/
theorem writeSectors_returns (data : ℕ → UInt8) {size lba t : ℕ} (left sct : ℕ) (d : Disk)
    (hpos : 512 * (t + sct) < size) :
    (writeSectors data lba left sct (size - 512 * (t + sct)) (512 * (t + sct))).Returns d
      (some (size - 512 * (t + sct + left)))
      ((List.range' sct (min left (sectorsFor size - (t + sct)))).map
        fun k => onDrive ((lba + k) % 2 ^ 32, fileSector data size (t + k))) := by
  induction left generalizing sct d with
  | zero => rw [Nat.zero_min]; rfl
  | succ left ih =>
      have hsec : sectorsFor size - (t + sct) = sectorsFor size - (t + (sct + 1)) + 1 := by
        unfold sectorsFor
        omega
      have hbuf : Sector.ofBytes (fun k =>
          if k < (if size - 512 * (t + sct) < 512 then size - 512 * (t + sct) else 512) then
            data (512 * (t + sct) + k) else 0) = fileSector data size (t + sct) := by
        refine Sector.ext_byte fun k hk => ?_
        rw [Sector.byte_ofBytes _ hk, fileSector, Sector.byte_ofBytes _ hk]
        refine if_congr ?_ rfl rfl
        split_ifs <;> omega
      have hwrite := ataWrite_returns_onDrive d ((lba + sct) % 2 ^ 32)
        (fileSector data size (t + sct))
      have hmin : min (left + 1) (sectorsFor size - (t + sct)) =
          min left (sectorsFor size - (t + (sct + 1))) + 1 := by omega
      rw [hmin, List.range'_succ, List.map_cons]
      unfold writeSectors
      dsimp only
      rw [hbuf]
      refine hwrite.bind ?_
      have hleft : size - 512 * (t + sct) - (if size - 512 * (t + sct) < 512 then
          size - 512 * (t + sct) else 512) = size - 512 * (t + (sct + 1)) := by
        split_ifs <;> omega
      rw [if_neg (by decide), hleft]
      by_cases hlast : size ≤ 512 * (t + (sct + 1))
      · have hzero : sectorsFor size - (t + (sct + 1)) = 0 := by
          unfold sectorsFor
          omega
        rw [if_pos (by omega), hzero, Nat.min_zero,
          show size - 512 * (t + sct + (left + 1)) = 0 by omega]
        rfl
      · have hoff : 512 * (t + sct) + (if size - 512 * (t + sct) < 512 then
            size - 512 * (t + sct) else 512) = 512 * (t + (sct + 1)) := by
          split_ifs <;> omega
        rw [if_neg (by omega), hoff, show t + sct + (left + 1) = t + (sct + 1) + left by omega]
        exact ih (sct + 1) _ (by omega)

theorem le_mul_iff_clustersFor_le {m : Mount} (hspc : 1 ≤ m.spc) {size i : ℕ} :
    clustersFor m size ≤ i ↔ size ≤ i * (512 * m.spc) := by
  have hdiv : (size + (512 * m.spc - 1)) / (512 * m.spc) < i + 1 ↔
      size + (512 * m.spc - 1) < (i + 1) * (512 * m.spc) :=
    Nat.div_lt_iff_lt_mul (by omega)
  rw [Nat.add_mul, Nat.one_mul] at hdiv
  unfold clustersFor
  omega

/-- The sectors of a cluster follow each other, as 32-bit addresses. -/
theorem Mount.clusterLba_add (m : Mount) (c k : ℕ) :
    (m.clusterLba c 0 + k) % 2 ^ 32 = m.clusterLba c k := by
  rw [clusterLba, clusterLba, Nat.mod_add_mod, Nat.add_zero]

/-- The sector loop of `fat_write` over the whole of cluster `i` of the file. -/
theorem writeCluster_returns {m : Mount} (data : ℕ → UInt8) {size i c : ℕ} (hmore : i * (512 * m.spc) < size)
    (d : Disk) :
    (writeSectors data (m.clusterLba c 0) m.spc 0 (size - i * (512 * m.spc))
        (size - (size - i * (512 * m.spc)))).Returns d
      (some (size - (i + 1) * (512 * m.spc)))
      (((List.range (min m.spc (sectorsFor size - i * m.spc))).map
        fun k => (m.clusterLba c k, fileSector data size (i * m.spc + k))).map onDrive) := by
  have hunit : i * (512 * m.spc) = 512 * (i * m.spc + 0) := by ring
  have hnext : (i + 1) * (512 * m.spc) = 512 * (i * m.spc + 0 + m.spc) := by ring
  have hsectors := @writeSectors_returns data size (m.clusterLba c 0) (i * m.spc) m.spc 0 d
    (hunit ▸ hmore)
  simp only [m.clusterLba_add] at hsectors
  rw [List.map_map, hnext, show size - (size - i * (512 * m.spc)) = 512 * (i * m.spc + 0) by omega,
    hunit, List.range_eq_range']
  exact hsectors

section Loops

variable {m : Mount} (hspc : 1 ≤ m.spc)
include hspc

/-- The cluster loop of `fat_write` is the allocation of a chain, with the data
written to the clusters on the way. -/
theorem writeClusters_exec {data : ℕ → UInt8} {size n i first prev : ℕ}
    {fatBuf : FatBuf} {taken : List ℕ} (hn : n = clustersFor m size - i) {fuel : ℕ}
    (hfuel : n < fuel) (d : Disk) :
    match allocChain m.totalClusters n prev fatBuf with
    | .ok r => (writeClusters m m.totalClusters data size fuel (size - i * (512 * m.spc)) first prev
        fatBuf taken).Returns d
        ⟨r.complete, if first = 0 then r.clusters.headD 0 else first, r.fatBuf,
          taken ++ r.clusters⟩ ((fileWrites m data size i r.clusters).map onDrive)
    | .error fault => ∃ writes, (writeClusters m m.totalClusters data size fuel
        (size - i * (512 * m.spc)) first prev fatBuf taken).exec d = (.error fault, writes) := by
  induction n generalizing i first prev fatBuf taken fuel d with
  | zero =>
      obtain ⟨fuel, rfl⟩ : ∃ k, fuel = k + 1 := ⟨fuel - 1, by omega⟩
      have hdone := (le_mul_iff_clustersFor_le hspc).mp (show clustersFor m size ≤ i by omega)
      simp only [allocChain]
      rw [writeClusters, if_pos (by omega), List.append_nil]
      by_cases hfirst : first = 0
      · rw [if_pos hfirst, hfirst]
        rfl
      · rw [if_neg hfirst]
        rfl
  | succ n ih =>
      obtain ⟨fuel, rfl⟩ : ∃ k, fuel = k + 1 := ⟨fuel - 1, by omega⟩
      have hmore : i * (512 * m.spc) < size := by
        by_contra hle
        have := (le_mul_iff_clustersFor_le hspc).mpr (show size ≤ i * (512 * m.spc) by omega)
        omega
      rcases allocChain_succ m.totalClusters n prev fatBuf with
        ⟨hfind, halloc⟩ | ⟨hfind, halloc⟩ | ⟨c, hfind, hc, hne, halloc⟩
      · rw [halloc, writeClusters, if_neg (by omega), hfind]
        exact ⟨[], rfl⟩
      · rw [halloc]
        dsimp only
        rw [writeClusters, if_neg (by omega), hfind, ret_bind, if_pos rfl, List.append_nil]
        by_cases hfirst : first = 0
        · rw [if_pos hfirst, hfirst]
          rfl
        · rw [if_neg hfirst]
          rfl
      · have hdata := writeCluster_returns data (c := c) hmore d
        set data₁ := ((List.range (min m.spc (sectorsFor size - i * m.spc))).map
          fun k => (m.clusterLba c k, fileSector data size (i * m.spc + k))).map onDrive with hdata₁
        set first' := if first = 0 then c else first with hfirst'
        have hstep : (writeClusters m m.totalClusters data size (fuel + 1)
            (size - i * (512 * m.spc)) first prev fatBuf taken).exec d =
            (((writeClusters m m.totalClusters data size fuel (size - (i + 1) * (512 * m.spc))
              first' c (takeCluster fatBuf prev c) (taken ++ [c])).exec (applyWrites data₁ d)).1,
              data₁ ++
              ((writeClusters m m.totalClusters data size fuel (size - (i + 1) * (512 * m.spc))
                first' c (takeCluster fatBuf prev c) (taken ++ [c])).exec (applyWrites data₁ d)).2) := by
          rw [writeClusters, if_neg (by omega), hfind, ret_bind, if_neg hne]
          exact hdata.exec_bind _
        have hrest := @ih (i + 1) first' c (takeCluster fatBuf prev c) (taken ++ [c]) (by omega) fuel
          (by omega) (applyWrites data₁ d)
        rw [halloc]
        cases hcase : allocChain m.totalClusters n c (takeCluster fatBuf prev c) with
        | error fault =>
            rw [hcase] at hrest
            obtain ⟨writes, hwrites⟩ := hrest
            exact ⟨_, by rw [hstep, hwrites]⟩
        | ok r =>
            rw [hcase] at hrest
            have hne' : first' ≠ 0 := by
              rw [hfirst']
              split_ifs with h <;> assumption
            have hclusters : taken ++ [c] ++ r.clusters = taken ++ c :: r.clusters := by simp
            dsimp only [Except.map] at hrest ⊢
            rw [if_neg hne', hclusters] at hrest
            rw [Returns, hstep, show _ = _ from hrest, fileWrites, List.map_append]
            rfl

/-- The whole cluster loop of `fat_write`, in any geometry. -/
theorem writeClusters_onDrive (data : ℕ → UInt8) {size : ℕ} (fatBuf : FatBuf) {fuel : ℕ}
    (hfuel : clustersFor m size < fuel) (d : Disk) :
    match allocChain m.totalClusters (clustersFor m size) 0 fatBuf with
    | .ok r => (writeClusters m m.totalClusters data size fuel size 0 0 fatBuf []).Returns d
        ⟨r.complete, r.clusters.headD 0, r.fatBuf, r.clusters⟩
        ((fileWrites m data size 0 r.clusters).map onDrive)
    | .error fault => ∃ writes,
        (writeClusters m m.totalClusters data size fuel size 0 0 fatBuf []).exec d =
          (.error fault, writes) := by
  have hexec := @writeClusters_exec m hspc data size _ 0 0 0 fatBuf [] rfl fuel hfuel d
  rwa [Nat.zero_mul, Nat.sub_zero] at hexec

end Loops

/-- The whole cluster loop of `fat_write`. -/
theorem writeClusters_start {m : Mount} (hv : m.Valid) (data : ℕ → UInt8) {size : ℕ}
    (fatBuf : FatBuf) {fuel : ℕ} (hfuel : clustersFor m size < fuel) (d : Disk) :
    match allocChain m.totalClusters (clustersFor m size) 0 fatBuf with
    | .ok r => (writeClusters m m.totalClusters data size fuel size 0 0 fatBuf []).Returns d
        ⟨r.complete, r.clusters.headD 0, r.fatBuf, r.clusters⟩
        (fileWrites m data size 0 r.clusters)
    | .error fault => ∃ writes,
        (writeClusters m m.totalClusters data size fuel size 0 0 fatBuf []).exec d =
          (.error fault, writes) := by
  have hexec := writeClusters_onDrive hv.spc_pos data fatBuf hfuel d
  cases halloc : allocChain m.totalClusters (clustersFor m size) 0 fatBuf with
  | error fault =>
      rw [halloc] at hexec
      exact hexec
  | ok r =>
      rw [halloc] at hexec
      dsimp only at hexec ⊢
      rwa [map_onDrive_fileWrites hv data size 0 fun c hc => ?_] at hexec
      obtain ⟨h2, hlt, -⟩ := allocChain_mem halloc hc
      exact ⟨h2, by have := m.totalClusters_le; omega⟩

end MasterOS.Fat
