/-
# Searching any directory

The loops that look for a slot have no bound of their own: they end at a slot that their
test takes or stops at, or where `read_dir_sector` says that the directory is over. In the
root directory that is after its sectors. In any other one it is where the chain ends, so on
a chain that runs in a circle, and over records that are all passed over, the search goes on
for ever.
-/

import MasterOS.Fat.AnyRead

namespace MasterOS.Fat

open MasterOS.Device MasterOS.Device.Prog MasterOS.Math

/-! ## The sectors of any directory -/

/-- The sector that `read_dir_sector` delivers, none past the directory's end. -/
def dirSector (m : Mount) (fatBuf : FatBuf) (d : Disk) (dirc s : ℕ) : Option Sector :=
  (dirLba m (fatNextCluster fatBuf) dirc s).map fun lba => d (lba % 2 ^ 32 % 2 ^ 28)

/-- Following a chain reads no entry, or starts at one that lies in the buffer. -/
theorem walkDir_any (fatBuf : FatBuf) (k c : ℕ) :
    walkDir fatBuf k c =
      if k = 0 ∨ InBuf c then .ret (dirCluster (fatNextCluster fatBuf) c k)
      else .stop .outOfBounds := by
  induction k generalizing c with
  | zero => rw [if_pos (Or.inl rfl)]; rfl
  | succ k ih =>
      rw [walkDir, loadEntry]
      by_cases hin : InBuf c
      · have hlt := fatNextCluster_lt fatBuf c
        have hnext : InBuf (fatNextCluster fatBuf c) := by
          unfold InBuf
          omega
        rw [if_pos hin, if_pos (Or.inr hin), ret_bind, ih, if_pos (Or.inr hnext), dirCluster]
        split_ifs <;> rfl
      · rw [if_neg hin, if_neg (by simp [hin])]
        rfl

section Read

variable {m : Mount} (hspc : 1 ≤ m.spc) {fatBuf : FatBuf} {dirc : ℕ} (hdirc : dirc < 2 ^ 16)
include hspc hdirc

/-- `read_dir_sector` of any directory. -/
theorem readDirSector_exec (s : ℕ) (d : Disk) :
    (readDirSector m dirc fatBuf s).exec d =
      if dirc = 0 ∨ InBuf dirc ∨ s < m.spc then
        (.ok (match dirSector m fatBuf d dirc s with
          | some sector => .ok sector
          | none => .error 1), [])
      else (.error .outOfBounds, []) := by
  unfold readDirSector dirSector dirLba
  by_cases hroot : dirc = 0
  · rw [if_pos hroot, if_pos (Or.inl hroot), if_pos hroot]
    by_cases hs : m.rootSectors ≤ s
    · rw [if_pos hs, if_neg (by omega)]
      rfl
    · rw [if_neg hs, if_pos (by omega)]
      rfl
  · have hzero : s / m.spc = 0 ↔ s < m.spc := by
      rw [Nat.div_eq_zero_iff]
      exact or_iff_right (by omega)
    rw [if_neg hroot, if_neg (by omega), if_neg hroot, Nat.mod_eq_of_lt hdirc, walkDir_any]
    by_cases hin : InBuf dirc ∨ s < m.spc
    · have hwalk : s / m.spc = 0 ∨ InBuf dirc := hin.symm.imp_left hzero.mpr
      rw [if_pos hwalk, if_pos (Or.inr hin), ret_bind]
      cases dirCluster (fatNextCluster fatBuf) dirc (s / m.spc) with
      | none => rfl
      | some c =>
          have hwrap : m.clusterLba c (s % m.spc) % 2 ^ 32 = m.clusterLba c (s % m.spc) :=
            Nat.mod_mod _ _
          rw [Option.map_some, Option.map_some, hwrap]
          rfl
    · have hwalk : ¬ (s / m.spc = 0 ∨ InBuf dirc) := fun h => hin (h.symm.imp_right hzero.mp)
      rw [if_neg hwalk, if_neg (not_or.mpr ⟨hroot, hin⟩)]
      rfl

end Read

/-! ## Where a search ends -/

/-- The directory is over, or its sector has a record that the search does not pass over. -/
def Ends (verdict : RawDirEntry → Verdict) : Option Sector → Prop
  | none => True
  | some sector => ∃ i < 16, verdict (sector.entry i) ≠ .skip

theorem scanSlots_eq_nothing_iff {verdict : RawDirEntry → Verdict} {sector : Sector} :
    scanSlots verdict sector (List.range 16) = .nothing ↔ ¬ Ends verdict (some sector) := by
  have hscan := scanSlots_range' verdict sector 0 16
  rw [← List.range_eq_range'] at hscan
  unfold Ends
  constructor
  · intro hnothing
    rw [hnothing] at hscan
    rintro ⟨i, hi, hends⟩
    exact hends (hscan i (Nat.zero_le i) (by omega))
  · intro hnone
    cases hcase : scanSlots verdict sector (List.range 16) with
    | nothing => rfl
    | ended =>
        rw [hcase] at hscan
        obtain ⟨i, -, hi, hstop, -⟩ := hscan
        exact absurd ⟨i, by omega, by rw [hstop]; decide⟩ hnone
    | hit i =>
        rw [hcase] at hscan
        obtain ⟨-, hi, htake, -⟩ := hscan
        exact absurd ⟨i, by omega, by rw [htake]; decide⟩ hnone

section Search

variable {m : Mount} {fatBuf : FatBuf} {dirc : ℕ} {verdict : RawDirEntry → Verdict} {d : Disk}

/-- One round of a search whose sector can be read. -/
theorem findSlot_round {x : Option Sector} {s : ℕ}
    (hread : (readDirSector m dirc fatBuf s).Returns d
      (match x with | some sector => .ok sector | none => .error 1) []) (fuel : ℕ) :
    (Ends verdict x → ∃ result,
      (findSlot m dirc fatBuf verdict (fuel + 1) s).Returns d result []) ∧
    (¬ Ends verdict x → (findSlot m dirc fatBuf verdict (fuel + 1) s).exec d =
      (findSlot m dirc fatBuf verdict fuel ((s + 1) % 2 ^ 32)).exec d) := by
  cases x with
  | none =>
      refine ⟨fun _ => ⟨none, ?_⟩, fun hnot => absurd trivial hnot⟩
      rw [findSlot]
      exact hread.bind_nil rfl
  | some sector =>
      constructor
      · intro hends
        have hsomething := mt scanSlots_eq_nothing_iff.mp (not_not_intro hends)
        rw [findSlot]
        cases hcase : scanSlots verdict sector (List.range 16) with
        | nothing => exact absurd hcase hsomething
        | ended => exact ⟨none, hread.bind_nil (by dsimp only; rw [hcase]; rfl)⟩
        | hit i => exact ⟨some ⟨s, sector, i⟩, hread.bind_nil (by dsimp only; rw [hcase]; rfl)⟩
      · intro hnot
        rw [findSlot, hread.exec_bind]
        dsimp only
        rw [scanSlots_eq_nothing_iff.mpr hnot]
        rfl

/-- A search ends that comes to a sector which ends it, if all sectors up to there can be
read. -/
theorem findSlot_returns_of_ends {x : ℕ → Option Sector} {last : ℕ} (hlast : last < 2 ^ 32)
    (hread : ∀ s ≤ last, (readDirSector m dirc fatBuf s).Returns d
      (match x s with | some sector => .ok sector | none => .error 1) [])
    (hends : Ends verdict (x last)) {fuel s : ℕ} (hs : s ≤ last) (hfuel : last < s + fuel) :
    ∃ result, (findSlot m dirc fatBuf verdict fuel s).Returns d result [] := by
  induction fuel generalizing s with
  | zero => omega
  | succ fuel ih =>
      obtain ⟨hstop, hgo⟩ := @findSlot_round _ _ _ verdict _ _ _ (hread s hs) fuel
      by_cases hhere : Ends verdict (x s)
      · exact hstop hhere
      · have hlt : s < last := by
          refine lt_of_le_of_ne hs ?_
          rintro rfl
          exact hhere hends
        simp only [Returns, hgo hhere, Nat.mod_eq_of_lt (show s + 1 < 2 ^ 32 by omega)]
        exact ih hlt (by omega)

/-- A search does not end when no sector ends it. -/
theorem findSlot_not_returns
    (hnone : ∀ s x, (readDirSector m dirc fatBuf s).Returns d x [] →
      ∃ sector, x = .ok sector ∧ ¬ Ends verdict (some sector))
    (hexec : ∀ s, ((readDirSector m dirc fatBuf s).exec d).2 = []) (fuel s : ℕ)
    (result : Option Hit) (writes : List (ℕ × Sector)) :
    ¬ (findSlot m dirc fatBuf verdict fuel s).Returns d result writes := by
  induction fuel generalizing s with
  | zero => exact fun h => nomatch (Prod.mk.inj h).1
  | succ fuel ih =>
      intro h
      rw [findSlot] at h
      obtain ⟨x, first, second, hread, -, -⟩ := returns_bind_iff.mp h
      obtain rfl : [] = first := by
        have hwrites := hexec s
        rw [show _ = _ from hread] at hwrites
        exact hwrites.symm
      obtain ⟨sector, rfl, hnot⟩ := hnone s x hread
      obtain ⟨-, hgo⟩ := @findSlot_round _ _ _ verdict _ (some sector) _ hread fuel
      have hgo := hgo hnot
      rw [findSlot] at hgo
      rw [Returns, hgo] at h
      exact ih _ h

end Search

/-! ## Chains that end and chains that do not -/

theorem dirCluster_add (next : ℕ → ℕ) (c i t : ℕ) :
    dirCluster next c (i + t) = (dirCluster next c i).bind fun x => dirCluster next x t := by
  induction i generalizing c with
  | zero => rw [Nat.zero_add]; rfl
  | succ i ih =>
      rw [Nat.add_right_comm, dirCluster, dirCluster]
      split_ifs
      · rfl
      · exact ih (next c)

theorem dirCluster_succ_lt {fatBuf : FatBuf} {c k x : ℕ}
    (h : dirCluster (fatNextCluster fatBuf) c (k + 1) = some x) : x < 4096 := by
  rw [dirCluster_add] at h
  obtain ⟨y, -, hy⟩ := Option.bind_eq_some_iff.mp h
  rw [dirCluster] at hy
  split_ifs at hy
  obtain rfl := Option.some.inj hy
  exact fatNextCluster_lt fatBuf y

/-- What a chain comes to at all, it comes to within `4097` links. -/
theorem exists_dirCluster_le {fatBuf : FatBuf} {c : ℕ} {Q : Option ℕ → Prop}
    (h : ∃ k, Q (dirCluster (fatNextCluster fatBuf) c k)) :
    ∃ k ≤ 4097, Q (dirCluster (fatNextCluster fatBuf) c k) := by
  have hshift : ∀ i j t, dirCluster (fatNextCluster fatBuf) c i =
      dirCluster (fatNextCluster fatBuf) c j →
      dirCluster (fatNextCluster fatBuf) c (i + t) =
        dirCluster (fatNextCluster fatBuf) c (j + t) := by
    intro i j t heq
    rw [dirCluster_add, dirCluster_add, heq]
  have hmem : ∀ i, dirCluster (fatNextCluster fatBuf) c (i + 1) ∈
      insert none ((Finset.range 4096).image some) := by
    intro i
    cases hx : dirCluster (fatNextCluster fatBuf) c (i + 1) with
    | none => exact Finset.mem_insert_self _ _
    | some x =>
        refine Finset.mem_insert_of_mem (Finset.mem_image_of_mem _ ?_)
        exact Finset.mem_range.mpr (dirCluster_succ_lt hx)
  obtain ⟨k, hk, hQ⟩ := exists_le_of_repeats hshift hmem h
  have hcard : (insert (none : Option ℕ) ((Finset.range 4096).image some)).card ≤ 4097 := by
    refine (Finset.card_insert_le _ _).trans ?_
    have himage := Finset.card_image_le (s := Finset.range 4096) (f := (some : ℕ → Option ℕ))
    rw [Finset.card_range] at himage
    omega
  exact ⟨k, hk.trans hcard, hQ⟩

/-- A cluster has a record that the search does not pass over. -/
def HaltsIn (m : Mount) (d : Disk) (verdict : RawDirEntry → Verdict) (c : ℕ) : Prop :=
  ∃ k < m.spc, ∃ i < 16, verdict ((d (m.clusterLba c k % 2 ^ 28)).entry i) ≠ .skip

/-- The chain is over, or its cluster has a record that the search does not pass over. -/
def HaltsAt (m : Mount) (d : Disk) (verdict : RawDirEntry → Verdict) : Option ℕ → Prop
  | none => True
  | some c => HaltsIn m d verdict c

/-- The search of a directory comes to an end: in the root; at a record of the directory's
first cluster; or, where the first entry lies in the buffer, at a record of a later cluster
or where the chain ends. -/
def SearchEnds (m : Mount) (fatBuf : FatBuf) (d : Disk) (dirc : ℕ)
    (verdict : RawDirEntry → Verdict) : Prop :=
  dirc = 0 ∨ HaltsIn m d verdict dirc ∨
    InBuf dirc ∧ ∃ k, HaltsAt m d verdict (dirCluster (fatNextCluster fatBuf) dirc k)

section Chain

variable {m : Mount} (hspc : 1 ≤ m.spc) {fatBuf : FatBuf} {dirc : ℕ} (hne : dirc ≠ 0)
  {verdict : RawDirEntry → Verdict} {d : Disk}
include hspc hne

/-- The sectors of a directory are those of its clusters. -/
theorem dirSector_eq (k : ℕ) {j : ℕ} (hj : j < m.spc) :
    dirSector m fatBuf d dirc (k * m.spc + j) =
      (dirCluster (fatNextCluster fatBuf) dirc k).map fun c =>
        d (m.clusterLba c j % 2 ^ 28) := by
  have hdiv : (k * m.spc + j) / m.spc = k := by
    rw [Nat.mul_comm, Nat.mul_add_div (by omega), Nat.div_eq_of_lt hj, Nat.add_zero]
  have hmod : (k * m.spc + j) % m.spc = j := by
    rw [Nat.mul_comm, Nat.mul_add_mod, Nat.mod_eq_of_lt hj]
  have hwrap (c : ℕ) : m.clusterLba c j % 2 ^ 32 = m.clusterLba c j := Nat.mod_mod _ _
  rw [dirSector, dirLba, if_neg hne, hdiv, hmod, Option.map_map]
  refine congrArg (fun f => Option.map f _) (funext fun c => ?_)
  rw [Function.comp_apply, hwrap]

/-- Somewhere in the directory's `k`-th cluster the search ends, exactly when it halts
there. -/
theorem exists_ends_iff (k : ℕ) :
    (∃ j < m.spc, Ends verdict (dirSector m fatBuf d dirc (k * m.spc + j))) ↔
      HaltsAt m d verdict (dirCluster (fatNextCluster fatBuf) dirc k) := by
  cases hc : dirCluster (fatNextCluster fatBuf) dirc k with
  | none =>
      refine ⟨fun _ => trivial, fun _ => ⟨0, by omega, ?_⟩⟩
      rw [dirSector_eq hspc hne k (by omega), hc]
      trivial
  | some c =>
      refine exists_congr fun j => and_congr_right fun hj => ?_
      rw [dirSector_eq hspc hne k hj, hc]
      rfl

end Chain

/-- A search that does not come to an end returns with no amount of fuel. -/
theorem not_returns_of_not_searchEnds {m : Mount} (hspc : 1 ≤ m.spc) {dirc : ℕ}
    (hdirc : dirc < 2 ^ 16) {fatBuf : FatBuf} {verdict : RawDirEntry → Verdict} {d : Disk}
    (hnot : ¬ SearchEnds m fatBuf d dirc verdict) (fuel : ℕ) (result : Option Hit)
    (writes : List (ℕ × Sector)) :
    ¬ (findSlot m dirc fatBuf verdict fuel 0).Returns d result writes := by
  have hexec := @readDirSector_exec m hspc fatBuf _ hdirc
  obtain ⟨hne, hnot⟩ := not_or.mp hnot
  obtain ⟨hfirst, hlater⟩ := not_or.mp hnot
  refine findSlot_not_returns (fun s x hx => ?_) (fun s => ?_) fuel 0 result writes
  · rw [Returns, hexec] at hx
    split_ifs at hx with hin
    · obtain rfl := Except.ok.inj (Prod.mk.inj hx).1
      have hsplit : s / m.spc * m.spc + s % m.spc = s := Nat.div_add_mod' s m.spc
      have hhalt : ¬ HaltsAt m d verdict (dirCluster (fatNextCluster fatBuf) dirc (s / m.spc)) := by
        rcases hin with hzero | hbuf | hlt
        · exact absurd hzero hne
        · exact fun h => hlater ⟨hbuf, _, h⟩
        · rw [Nat.div_eq_of_lt hlt]
          exact hfirst
      have hnone := mt (exists_ends_iff hspc hne (s / m.spc)).mp hhalt
      have hnot : ¬ Ends verdict (dirSector m fatBuf d dirc s) := by
        intro hends
        exact hnone ⟨s % m.spc, Nat.mod_lt s (by omega), hsplit.symm ▸ hends⟩
      cases hx : dirSector m fatBuf d dirc s with
      | none =>
          rw [hx] at hnot
          exact absurd trivial hnot
      | some sector =>
          rw [hx] at hnot
          exact ⟨sector, rfl, hnot⟩
    · cases (Prod.mk.inj hx).1
  · rw [hexec]
    split_ifs <;> rfl

/-- A search that comes to an end returns. -/
theorem returns_of_searchEnds {m : Mount} (hu : m.Usable) {dirc : ℕ} (hdirc : dirc < 2 ^ 16)
    {fatBuf : FatBuf} {verdict : RawDirEntry → Verdict} {d : Disk}
    (hends : SearchEnds m fatBuf d dirc verdict) :
    ∃ fuel result, (findSlot m dirc fatBuf verdict fuel 0).Returns d result [] := by
  have hspc := hu.spc_pos
  have hspc' := m.spc_lt
  -- in each case the sector that ends the search comes before the counter wraps
  have hfound {last : ℕ} (hlast : last < 2 ^ 32)
      (hin : ∀ s ≤ last, dirc = 0 ∨ InBuf dirc ∨ s < m.spc)
      (hends : Ends verdict (dirSector m fatBuf d dirc last)) :
      ∃ fuel result, (findSlot m dirc fatBuf verdict fuel 0).Returns d result [] := by
    refine ⟨last + 1, findSlot_returns_of_ends hlast (fun s hs => ?_) hends (Nat.zero_le _)
      (by omega)⟩
    rw [Returns, readDirSector_exec hspc hdirc, if_pos (hin s hs)]
  by_cases hroot : dirc = 0
  · have hsec := hu.rootSectors_lt
    refine @hfound m.rootSectors (by omega) (fun _ _ => Or.inl hroot) ?_
    rw [dirSector, dirLba, if_pos hroot, if_neg (Nat.lt_irrefl _)]
    trivial
  · rcases hends.resolve_left hroot with hfirst | ⟨hbuf, hlater⟩
    · obtain ⟨j, hj, hends⟩ := (@exists_ends_iff m hspc fatBuf _ hroot _ d 0).mpr hfirst
      rw [Nat.zero_mul, Nat.zero_add] at hends
      exact hfound (by omega) (fun s hs => Or.inr (Or.inr (by omega))) hends
    · obtain ⟨k, hk, hhalt⟩ := exists_dirCluster_le hlater
      obtain ⟨j, hj, hends⟩ := (exists_ends_iff hspc hroot k).mpr hhalt
      have hmul : k * m.spc ≤ 4097 * 255 := Nat.mul_le_mul hk (by omega)
      exact hfound (by omega) (fun _ _ => Or.inr (Or.inl hbuf)) hends

/-- **When a search ends.** In any directory that `fat_cd` can lead to, over any table and
any disk, a search ends if and only if it is in the root, or it halts in the directory's
first cluster, or it goes on from there within the buffer and halts later or the chain
ends. -/
theorem search_ends_iff {m : Mount} (hu : m.Usable) (first : UInt16) (fatBuf : FatBuf)
    (verdict : RawDirEntry → Verdict) (d : Disk) :
    (∃ fuel result, (findSlot m first.toNat fatBuf verdict fuel 0).Returns d result []) ↔
      SearchEnds m fatBuf d first.toNat verdict := by
  constructor
  · rintro ⟨fuel, result, hreturns⟩
    by_contra hnot
    exact not_returns_of_not_searchEnds hu.spc_pos first.toNat_lt hnot fuel result [] hreturns
  · exact returns_of_searchEnds hu first.toNat_lt

/-- A volume whose directory `A` is a cluster that links to itself and is full of files. -/
def circleDisk : Disk :=
  Function.update (Function.update (Function.update blank
    1 (.ofBytes fun k => if k = 3 then 2 else 0))
    2 ((blank 2).setEntry 0 (newEntry nameA 0x10 2 0)))
    3 (.ofBytes fun _ => 0x41)

/-- The driver in that directory. -/
def inCircle : Driver :=
  { (freshDriver smallMount).keepBuf .cd (loaded smallMount circleDisk fun _ => 0) with
    currentDirCluster := 2, currentPath := [0x2F, 0x41] }

theorem fatAt_circleDisk : fatAt smallMount circleDisk 2 = 2 := rfl

theorem not_haltsIn_circleDisk : ¬ HaltsIn smallMount circleDisk (fileVerdict nameB) 2 := by
  have hspc : smallMount.spc = 1 := rfl
  have hskip : ∀ i < 16, fileVerdict nameB ((circleDisk 3).entry i) = .skip := by decide +kernel
  rintro ⟨k, hk, i, hi, hhalt⟩
  obtain rfl : k = 0 := by omega
  exact hhalt (hskip i hi)

theorem dirCluster_circle {next : ℕ → ℕ} (h : next 2 = 2) (k : ℕ) :
    dirCluster next 2 k = some 2 := by
  induction k with
  | zero => rfl
  | succ k ih =>
      rw [dirCluster, h, if_neg (by decide)]
      exact ih

/-- A table in which the chain of cluster 2 ends there. -/
def endedTable : FatBuf := fun k => if k = 3 then 0xFF else if k = 4 then 0x0F else 0

/-- A search in the root ends. One in a directory whose cluster is full of other files ends when
the chain does, and does not when the cluster links to itself. -/
theorem search_ends_iff_circleDisk :
    (∃ fuel result, (findSlot smallMount (0 : UInt16).toNat (fun _ => 0) (fileVerdict nameB) fuel
      0).Returns circleDisk result []) ∧
    (∃ fuel result, (findSlot smallMount (2 : UInt16).toNat endedTable (fileVerdict nameB) fuel
      0).Returns circleDisk result []) ∧
    ¬ ∃ fuel result, (findSlot smallMount (2 : UInt16).toNat
      (loaded smallMount circleDisk fun _ => 0) (fileVerdict nameB) fuel 0).Returns circleDisk
        result [] := by
  have hu := valid_smallMount.usable
  refine ⟨?_, ?_, ?_⟩
  · exact (search_ends_iff hu 0 _ _ circleDisk).mpr (Or.inl rfl)
  · refine (search_ends_iff hu 2 _ _ circleDisk).mpr (Or.inr (Or.inr ⟨by decide, 1, ?_⟩))
    have hend : fatNextCluster endedTable 2 = 0xFFF := rfl
    rw [show (2 : UInt16).toNat = 2 from rfl, dirCluster, hend, if_pos (by decide)]
    trivial
  · rw [search_ends_iff hu 2]
    have hself : fatNextCluster (loaded smallMount circleDisk fun _ => 0) 2 = 2 := by
      rw [fatNextCluster_loaded (by decide)]
      exact fatAt_circleDisk
    rintro (hroot | hfirst | ⟨-, k, hlater⟩)
    · exact absurd hroot (by decide)
    · exact not_haltsIn_circleDisk hfirst
    · rw [show (2 : UInt16).toNat = 2 from rfl, dirCluster_circle hself k] at hlater
      exact not_haltsIn_circleDisk hlater

/-- **A search on a circular chain does not end.** `fat_cd` enters the directory `A`, and
there `fat_read` of `B` returns with no amount of fuel. -/
theorem fatRead_runs_forever_circleDisk :
    (fatCd (loopBound + 1) (freshDriver smallMount) nameA).Returns circleDisk (0, inCircle) [] ∧
    ∀ fuel buf bufSize result writes,
      ¬ (fatRead fuel inCircle nameB buf bufSize).Returns circleDisk result writes := by
  constructor
  · have hnamed : Named smallMount circleDisk 0 (dirVerdict nameA) (2, 0) :=
      ⟨0, rfl, by decide +kernel, fun k hk => absurd hk (Nat.not_lt_zero k)⟩
    have hentry : (entryAt circleDisk (2, 0)).firstCluster.toNat = 2 ∧
        cdPath [0x2F] (cstr (makeName (entryAt circleDisk (2, 0)).name
          (entryAt circleDisk (2, 0)).ext)) = [0x2F, 0x41] := by decide +kernel
    have hexec := @fatCd_exec_some (freshDriver smallMount) _ ⟨valid_smallMount, Or.inl rfl⟩
      nameA _ (by decide) (Nat.lt_succ_self loopBound) _ hnamed
    rw [Returns, hexec, hentry.1, show (freshDriver smallMount).currentPath = [0x2F] from rfl,
      hentry.2, if_pos (by decide)]
    rfl
  · intro fuel buf bufSize result writes hread
    have hu := valid_smallMount.usable
    have hself : fatNextCluster (loaded inCircle.mount circleDisk (inCircle.fatBuf .read)) 2 = 2 := by
      rw [fatNextCluster_loaded (by decide)]
      exact fatAt_circleDisk
    rw [Returns, fatRead, @withFat_exec_usable _ inCircle hu] at hread
    obtain ⟨hit, first, second, hfind, -, -⟩ := returns_bind_iff.mp hread
    refine not_returns_of_not_searchEnds hu.spc_pos (by decide) ?_ fuel hit first hfind
    rintro (hroot | hfirst | ⟨-, k, hlater⟩)
    · exact absurd hroot (by decide)
    · exact not_haltsIn_circleDisk hfirst
    · rw [show inCircle.currentDirCluster = 2 from rfl, dirCluster_circle hself k] at hlater
      exact not_haltsIn_circleDisk hlater

end MasterOS.Fat
