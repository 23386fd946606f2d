/-
# Where a call may fault

The faults of the driver beside its loops are a division by the sectors of a cluster and an
access behind the table's array. Both hang on how the current directory is walked and on
what the search for a free cluster finds. Each piece of the driver is given the promise that
no fault of a chosen kind is met, under the condition on its own arguments that keeps it.
-/

import MasterOS.Device.Meets
import MasterOS.Fat.Calls
import MasterOS.Fat.AnySearch
import MasterOS.Fat.Capacity
import MasterOS.Fat.Paths

namespace MasterOS.Fat

open MasterOS.Device MasterOS.Device.Prog MasterOS.Math

/-! ## Walking the current directory -/

/-- Sector `s` of a directory is found without a bad fault: the root needs no walk, and any
other directory a divisor and, behind its first cluster, a first entry in the array. -/
def WalkSafe (bad : Fault → Prop) (m : Mount) (dirc s : ℕ) : Prop :=
  dirc = 0 ∨ (bad .divideByZero → m.spc ≠ 0) ∧
    (bad .outOfBounds → s / m.spc = 0 ∨ InBuf (dirc % 2 ^ 16))

/-- A search of the directory meets no bad fault: every sector is found without one, or the
search ends in the directory's first cluster. -/
def SearchSafe (bad : Fault → Prop) (m : Mount) (dirc : ℕ) (verdict : RawDirEntry → Verdict)
    (d : Disk) : Prop :=
  (∀ s, WalkSafe bad m dirc s) ∨ HaltsIn m d verdict dirc

/-- The records of the first `n` sectors of a directory's first cluster. -/
def firstRecords (m : Mount) (d : Disk) (dirc n : ℕ) : List RawDirEntry :=
  (List.range n).flatMap fun k =>
    (List.range 16).map fun i => (d (m.clusterLba dirc k % 2 ^ 28)).entry i

/-- A listing ends in the directory's first cluster: there is the end of the directory, or
there are as many records to list as the caller takes. -/
def ListHalts (m : Mount) (dirc : ℕ) (max : ℤ) (d : Disk) : Prop :=
  (∃ e ∈ firstRecords m d dirc m.spc, e.isEnd = true) ∨
    max ≤ ((firstRecords m d dirc m.spc).filter (·.listed)).length

/-- A listing of the directory meets no bad fault. -/
def ListSafe (bad : Fault → Prop) (m : Mount) (dirc : ℕ) (max : ℤ) (d : Disk) : Prop :=
  (∀ s, WalkSafe bad m dirc s) ∨ ListHalts m dirc max d

/-- The clusters whose entries lie behind the array stay as they are. -/
def KeepsBeyond (m : Mount) (d d' : Disk) : Prop :=
  ∀ c k, c < 65536 → ¬ InBuf c → k < m.spc →
    d' (m.clusterLba c k % 2 ^ 28) = d (m.clusterLba c k % 2 ^ 28)

theorem KeepsBeyond.refl (m : Mount) (d : Disk) : KeepsBeyond m d d := fun _ _ _ _ _ => rfl

theorem KeepsBeyond.trans {m : Mount} {d d' d'' : Disk} (h : KeepsBeyond m d d')
    (h' : KeepsBeyond m d' d'') : KeepsBeyond m d d'' := fun c k hc hin hk =>
  (h' c k hc hin hk).trans (h c k hc hin hk)

section Pieces

variable {bad : Fault → Prop} {m : Mount} {d : Disk} {fatBuf : FatBuf}

theorem loadEntry_meets {c : ℕ} (h : bad .outOfBounds → InBuf c) :
    Prog.Meets bad (fun next d' => d' = d ∧ next = fatNextCluster fatBuf c)
      (loadEntry fatBuf c) d := by
  unfold loadEntry
  by_cases hin : InBuf c
  · rw [if_pos hin]
    exact ⟨rfl, rfl⟩
  · rw [if_neg hin]
    exact mt h hin

theorem walkDir_meets {n c : ℕ} (h : bad .outOfBounds → n = 0 ∨ InBuf c) :
    Prog.Meets bad (fun found d' => d' = d ∧ found = dirCluster (fatNextCluster fatBuf) c n)
      (walkDir fatBuf n c) d := by
  rw [walkDir_any]
  by_cases hin : n = 0 ∨ InBuf c
  · rw [if_pos hin]
    exact ⟨rfl, rfl⟩
  · rw [if_neg hin]
    exact mt h hin

theorem walkBack_meets {n c : ℕ} (h : bad .outOfBounds → n = 0 ∨ InBuf c) :
    Prog.Meets bad (fun _ d' => d' = d) (walkBack fatBuf n c) d := by
  induction n generalizing c with
  | zero => exact rfl
  | succ n ih =>
      refine (loadEntry_meets fun hbad => (h hbad).resolve_left (Nat.succ_ne_zero n)).bind ?_
      rintro next _ ⟨rfl, rfl⟩
      have hlt := fatNextCluster_lt fatBuf c
      exact ih fun _ => Or.inr (show fatNextCluster fatBuf c + _ / 2 + 1 < 18 * 512 by omega)

/-- `read_dir_sector` delivers the sector of the directory, if any. -/
theorem readDirSector_meets {dirc s : ℕ} (hdirc : dirc < 2 ^ 16) (h : WalkSafe bad m dirc s) :
    Prog.Meets bad (fun r d' => d' = d ∧ ∀ sector, r = .ok sector →
      dirSector m fatBuf d dirc s = some sector) (readDirSector m dirc fatBuf s) d := by
  unfold readDirSector dirSector dirLba
  by_cases hroot : dirc = 0
  · rw [if_pos hroot, if_pos hroot]
    by_cases hs : m.rootSectors ≤ s
    · rw [if_pos hs]
      exact ⟨rfl, nofun⟩
    · rw [if_neg hs, if_pos (by omega)]
      refine ⟨⟨rfl, nofun⟩, rfl, fun sector hsector => ?_⟩
      injection hsector with hsector
      rw [← hsector]
      rfl
  · obtain ⟨hdiv, hwalk⟩ := h.resolve_left hroot
    rw [if_neg hroot, if_neg hroot]
    by_cases hspc : m.spc = 0
    · rw [if_pos hspc]
      exact fun hbad => hdiv hbad hspc
    · rw [if_neg hspc]
      refine (walkDir_meets hwalk).bind ?_
      rintro found _ ⟨rfl, rfl⟩
      rw [Nat.mod_eq_of_lt hdirc]
      cases dirCluster (fatNextCluster fatBuf) dirc (s / m.spc) with
      | none => exact ⟨rfl, nofun⟩
      | some c =>
          refine ⟨⟨rfl, nofun⟩, rfl, fun sector hsector => ?_⟩
          injection hsector with hsector
          have hwrap : m.clusterLba c (s % m.spc) % 2 ^ 32 = m.clusterLba c (s % m.spc) :=
            Nat.mod_mod _ _
          rw [Option.map_some, Option.map_some, hwrap, ← hsector]

theorem writeDirSector_meets {dirc s : ℕ} {sector : Sector} (h : WalkSafe bad m dirc s) :
    Prog.Meets bad (fun _ _ => True) (writeDirSector m dirc fatBuf s sector) d := by
  unfold writeDirSector
  by_cases hroot : dirc = 0
  · rw [if_pos hroot]
    exact ⟨trivial, trivial, trivial⟩
  · obtain ⟨hdiv, hwalk⟩ := h.resolve_left hroot
    rw [if_neg hroot]
    by_cases hspc : m.spc = 0
    · rw [if_pos hspc]
      exact fun hbad => hdiv hbad hspc
    · rw [if_neg hspc]
      exact (walkBack_meets hwalk).bind fun _ _ _ => ⟨trivial, trivial, trivial⟩

/-- In the first cluster the sector is the cluster's. -/
theorem dirSector_first {dirc k : ℕ} (hroot : dirc ≠ 0) (hk : k < m.spc) :
    dirSector m fatBuf d dirc k = some (d (m.clusterLba dirc k % 2 ^ 28)) := by
  have hwrap : m.clusterLba dirc k % 2 ^ 32 = m.clusterLba dirc k := Nat.mod_mod _ _
  rw [dirSector, dirLba, if_neg hroot, Nat.div_eq_of_lt hk, dirCluster, Option.map_some,
    Option.map_some, Nat.mod_eq_of_lt hk, hwrap]

/-- A search through sectors that are all found without a bad fault. -/
theorem findSlot_meets_walk {dirc : ℕ} {verdict : RawDirEntry → Verdict} (hfuel : ¬ bad .outOfFuel)
    (hdirc : dirc < 2 ^ 16) (h : ∀ s, WalkSafe bad m dirc s) (fuel s : ℕ) :
    Prog.Meets bad (fun found d' => d' = d ∧ ∀ hit, found = some hit → WalkSafe bad m dirc hit.s)
      (findSlot m dirc fatBuf verdict fuel s) d := by
  induction fuel generalizing s with
  | zero => exact hfuel
  | succ fuel ih =>
      refine (readDirSector_meets hdirc (h s)).bind ?_
      rintro r _ ⟨rfl, -⟩
      cases r with
      | error code => exact ⟨rfl, nofun⟩
      | ok sector =>
          dsimp only
          cases scanSlots verdict sector (List.range 16) with
          | nothing => exact ih _
          | ended => exact ⟨rfl, nofun⟩
          | hit i =>
              refine ⟨rfl, fun hit hhit => ?_⟩
              injection hhit with hhit
              rw [← hhit]
              exact h s

/-- A search that ends in the first cluster. -/
theorem findSlot_meets_halts {dirc : ℕ} {verdict : RawDirEntry → Verdict}
    (hfuel : ¬ bad .outOfFuel) (hdirc : dirc < 2 ^ 16) (hroot : dirc ≠ 0) {last : ℕ}
    (hlast : last < m.spc)
    (hends : Ends verdict (some (d (m.clusterLba dirc last % 2 ^ 28)))) (fuel s : ℕ)
    (hs : s ≤ last) :
    Prog.Meets bad (fun found d' => d' = d ∧ ∀ hit, found = some hit → WalkSafe bad m dirc hit.s)
      (findSlot m dirc fatBuf verdict fuel s) d := by
  have hwalk (s : ℕ) (hs : s ≤ last) : WalkSafe bad m dirc s :=
    Or.inr ⟨fun _ => by omega, fun _ => Or.inl (Nat.div_eq_of_lt (by omega))⟩
  induction fuel generalizing s with
  | zero => exact hfuel
  | succ fuel ih =>
      refine (readDirSector_meets hdirc (hwalk s hs)).bind ?_
      rintro r _ ⟨rfl, hsector⟩
      cases r with
      | error code => exact ⟨rfl, nofun⟩
      | ok sector =>
          have hsame := hsector sector rfl
          rw [dirSector_first hroot (by omega)] at hsame
          dsimp only
          cases hscan : scanSlots verdict sector (List.range 16) with
          | nothing =>
              have hlt : s < last := by
                refine lt_of_le_of_ne hs ?_
                rintro rfl
                rw [hsame] at hends
                exact scanSlots_eq_nothing_iff.mp hscan hends
              have := m.spc_lt
              rw [Nat.mod_eq_of_lt (by omega)]
              exact ih _ hlt
          | ended => exact ⟨rfl, nofun⟩
          | hit i =>
              refine ⟨rfl, fun hit hhit => ?_⟩
              injection hhit with hhit
              rw [← hhit]
              exact hwalk s hs

/-- **The search rule.** -/
theorem findSlot_meets {dirc : ℕ} {verdict : RawDirEntry → Verdict} (hfuel : ¬ bad .outOfFuel)
    (hdirc : dirc < 2 ^ 16) (h : SearchSafe bad m dirc verdict d) (fuel : ℕ) :
    Prog.Meets bad (fun found d' => d' = d ∧ ∀ hit, found = some hit → WalkSafe bad m dirc hit.s)
      (findSlot m dirc fatBuf verdict fuel 0) d := by
  by_cases hroot : dirc = 0
  · exact findSlot_meets_walk hfuel hdirc (fun _ => Or.inl hroot) fuel 0
  · rcases h with hwalk | ⟨k, hk, i, hi, hends⟩
    · exact findSlot_meets_walk hfuel hdirc hwalk fuel 0
    · exact findSlot_meets_halts hfuel hdirc hroot hk ⟨i, hi, hends⟩ fuel 0 (Nat.zero_le k)

/-- In a root without sectors a search finds nothing. -/
theorem findSlot_emptyRoot (hroot : m.rootSectors = 0) (fatBuf : FatBuf)
    (verdict : RawDirEntry → Verdict) (fuel : ℕ) :
    findSlot m 0 fatBuf verdict fuel 0 = .stop .outOfFuel ∨
      findSlot m 0 fatBuf verdict fuel 0 = .ret none := by
  cases fuel with
  | zero => exact Or.inl rfl
  | succ fuel =>
      right
      rw [findSlot, readDirSector, if_pos rfl, if_pos hroot.le]
      rfl

theorem placeEntry_meets {dirc : ℕ} (hfuel : ¬ bad .outOfFuel) (hdirc : dirc < 2 ^ 16)
    (h : SearchSafe bad m dirc freeVerdict d) (fuel : ℕ) (e : RawDirEntry) :
    Prog.Meets bad (fun _ _ => True) (placeEntry m dirc fatBuf fuel e) d := by
  refine (findSlot_meets hfuel hdirc h fuel).bind ?_
  rintro found _ ⟨rfl, hhit⟩
  cases found with
  | none => exact trivial
  | some hit => exact writeDirSector_meets (hhit hit rfl)

/-! ## Listing the current directory -/

/-- What listing the slots of a sector comes to. -/
theorem listSlots_cases (max : ℤ) (sector : Sector) (l : List ℕ) (entries : List Fat12Entry) :
    (listSlots max sector l entries).1 = true ∨
      max ≤ (listSlots max sector l entries).2.length ∨
      (∀ i ∈ l, (sector.entry i).isEnd = false) ∧
        (listSlots max sector l entries).2.length =
          entries.length + ((l.map sector.entry).filter (·.listed)).length := by
  induction l generalizing entries with
  | nil => exact Or.inr (Or.inr ⟨nofun, rfl⟩)
  | cons i rest ih =>
      by_cases hmax : entries.length < max
      · by_cases hend : (sector.entry i).isEnd = true
        · left
          rw [listSlots, if_pos hmax]
          dsimp only
          rw [if_pos hend]
        · rw [Bool.not_eq_true] at hend
          rw [listSlots_cons rest hend hmax]
          rcases ih (if (sector.entry i).listed then entries ++ [(sector.entry i).report]
            else entries) with hended | hfull | ⟨hnone, hlength⟩
          · exact Or.inl hended
          · exact Or.inr (Or.inl hfull)
          · refine Or.inr (Or.inr ⟨List.forall_mem_cons.mpr ⟨hend, hnone⟩, ?_⟩)
            rw [hlength, List.map_cons, List.filter_cons]
            split_ifs with hlisted
            · rw [List.length_append, List.length_cons, List.length_cons, List.length_nil]
              omega
            · rfl
      · right
        left
        rw [listSlots, if_neg hmax]
        exact not_lt.mp hmax

theorem firstRecords_succ (m : Mount) (d : Disk) (dirc n : ℕ) :
    firstRecords m d dirc (n + 1) = firstRecords m d dirc n ++
      (List.range 16).map (d (m.clusterLba dirc n % 2 ^ 28)).entry := by
  rw [firstRecords, List.range_succ (n := n), List.flatMap_append, List.flatMap_singleton]
  rfl

theorem listSectors_meets_walk {dirc : ℕ} (hfuel : ¬ bad .outOfFuel) (hdirc : dirc < 2 ^ 16)
    (h : ∀ s, WalkSafe bad m dirc s) (max : ℤ) (fuel s : ℕ) (entries : List Fat12Entry) :
    Prog.Meets bad (fun _ d' => d' = d) (listSectors m dirc fatBuf max fuel s entries) d := by
  induction fuel generalizing s entries with
  | zero => exact hfuel
  | succ fuel ih =>
      refine meets_ite (fun _ => ?_) fun _ => rfl
      refine (readDirSector_meets hdirc (h s)).bind ?_
      rintro r _ ⟨rfl, -⟩
      cases r with
      | error code => exact rfl
      | ok sector =>
          dsimp only
          rcases listSlots max sector (List.range 16) entries with ⟨ended | ended, entries'⟩
          · exact ih _ _
          · exact rfl

/-- A listing that ends in the first cluster. -/
theorem listSectors_meets_halts {dirc : ℕ} {max : ℤ} (hfuel : ¬ bad .outOfFuel)
    (hdirc : dirc < 2 ^ 16) (hroot : dirc ≠ 0) (h : ListHalts m dirc max d) (fuel s : ℕ)
    (entries : List Fat12Entry) (hs : s ≤ m.spc)
    (hentries : max ≤ entries.length ∨ (∀ e ∈ firstRecords m d dirc s, e.isEnd = false) ∧
      entries.length = ((firstRecords m d dirc s).filter (·.listed)).length) :
    Prog.Meets bad (fun _ d' => d' = d) (listSectors m dirc fatBuf max fuel s entries) d := by
  induction fuel generalizing s entries with
  | zero => exact hfuel
  | succ fuel ih =>
      refine meets_ite (fun hmore => ?_) fun _ => rfl
      obtain ⟨hnone, hlength⟩ := hentries.resolve_left (not_le.mpr hmore)
      -- the listing has not come to the end of the cluster
      have hlt : s < m.spc := by
        refine lt_of_le_of_ne hs ?_
        rintro rfl
        rcases h with ⟨e, he, hend⟩ | hmax
        · rw [hnone e he] at hend
          cases hend
        · rw [hlength] at hmore
          exact absurd hmore (not_lt.mpr hmax)
      have hwalk : WalkSafe bad m dirc s :=
        Or.inr ⟨fun _ => by omega, fun _ => Or.inl (Nat.div_eq_of_lt hlt)⟩
      refine (readDirSector_meets hdirc hwalk).bind ?_
      rintro r _ ⟨rfl, hsector⟩
      cases r with
      | error code => exact rfl
      | ok sector =>
          have hsame := hsector sector rfl
          rw [dirSector_first hroot hlt] at hsame
          have hcases := listSlots_cases max sector (List.range 16) entries
          dsimp only
          generalize listSlots max sector (List.range 16) entries = result at hcases ⊢
          obtain ⟨ended | ended, entries'⟩ := result
          · have := m.spc_lt
            rw [Nat.mod_eq_of_lt (show s + 1 < 2 ^ 32 by omega)]
            refine ih _ _ hlt ?_
            refine (hcases.resolve_left Bool.false_ne_true).imp_right fun ⟨hnone', hlength'⟩ => ?_
            rw [firstRecords_succ, Option.some.inj hsame, List.filter_append, List.length_append]
            refine ⟨fun e he => ?_, hlength'.trans (by rw [hlength])⟩
            rcases List.mem_append.mp he with he | he
            · exact hnone e he
            · obtain ⟨i, hi, rfl⟩ := List.mem_map.mp he
              exact hnone' i hi
          · exact rfl

/-- **The listing rule.** -/
theorem listSectors_meets {dirc : ℕ} {max : ℤ} (hfuel : ¬ bad .outOfFuel) (hdirc : dirc < 2 ^ 16)
    (h : ListSafe bad m dirc max d) (fuel : ℕ) :
    Prog.Meets bad (fun _ d' => d' = d) (listSectors m dirc fatBuf max fuel 0 []) d := by
  by_cases hroot : dirc = 0
  · exact listSectors_meets_walk hfuel hdirc (fun _ => Or.inl hroot) max fuel 0 []
  · rcases h with hwalk | hhalts
    · exact listSectors_meets_walk hfuel hdirc hwalk max fuel 0 []
    · exact listSectors_meets_halts hfuel hdirc hroot hhalts fuel 0 [] (Nat.zero_le _)
        (Or.inr ⟨nofun, rfl⟩)

/-! ## The chain of a file -/

/-- A cluster that the loops over a chain go on with has its entry in the array. -/
theorem inBuf_of_le {c : ℕ} (h : c ≤ 0xFEF) : InBuf c := by
  unfold InBuf
  omega

theorem readSectors_meets (lba fileSize bufSize left s bytesRead : ℕ) (buf : ℕ → UInt8) :
    Prog.Meets bad (fun _ d' => d' = d)
      (readSectors lba fileSize bufSize left s bytesRead buf) d := by
  induction left generalizing s bytesRead buf with
  | zero => exact rfl
  | succ left ih =>
      refine ⟨rfl, ?_⟩
      dsimp only
      exact meets_ite (fun _ => rfl) fun _ => ih _ _ _

theorem readChain_meets (hfuel : ¬ bad .outOfFuel) (fileSize bufSize fuel c bytesRead : ℕ)
    (buf : ℕ → UInt8) :
    Prog.Meets bad (fun _ d' => d' = d)
      (readChain m fatBuf fileSize bufSize fuel c bytesRead buf) d := by
  induction fuel generalizing c bytesRead buf with
  | zero => exact hfuel
  | succ fuel ih =>
      refine meets_ite (fun hc => ?_) fun _ => rfl
      refine (readSectors_meets _ fileSize bufSize m.spc 0 bytesRead buf).bind ?_
      rintro step _ rfl
      cases step with
      | failed buf => exact rfl
      | finished bytesRead buf => exact rfl
      | more bytesRead buf =>
          refine (loadEntry_meets fun _ => inBuf_of_le hc.2).bind ?_
          rintro next _ ⟨rfl, -⟩
          exact meets_ite (fun _ => rfl) fun _ => ih _ _ _

theorem freeChain_meets (hfuel : ¬ bad .outOfFuel) (fuel : ℕ) (fatBuf : FatBuf) (c : ℕ) :
    Prog.Meets bad (fun _ d' => d' = d) (freeChain fuel fatBuf c) d := by
  induction fuel generalizing fatBuf c with
  | zero => exact hfuel
  | succ fuel ih =>
      refine meets_ite (fun hc => ?_) fun _ => rfl
      refine (loadEntry_meets fun _ => inBuf_of_le hc.2).bind ?_
      rintro next _ ⟨rfl, -⟩
      exact ih _ _

/-! ## The table -/

theorem ataWrite_meets (lba : ℕ) (sector : Sector) :
    Prog.Meets bad (fun _ d' => d' = d ∨ d' = Function.update d (lba % 2 ^ 28) sector)
      (ataWrite lba sector) d := ⟨Or.inr rfl, Or.inl rfl, Or.inr rfl⟩

theorem loadFat_meets (left s : ℕ) (fatBuf : FatBuf) :
    Prog.Meets bad (fun r d' => d' = d ∧ (r.1 = 0 → (loadFat m left s fatBuf).Returns d r []))
      (loadFat m left s fatBuf) d := by
  induction left generalizing s fatBuf with
  | zero => exact ⟨rfl, fun _ => rfl⟩
  | succ left ih =>
      refine ⟨⟨rfl, fun h => absurd (show (-1 : ℤ) = 0 from h) (by decide)⟩, ?_⟩
      exact (ih (s + 1) _).mono fun r d' hr => ⟨hr.1, fun hzero => hr.2 hzero⟩

/-- A write below the root directory. -/
theorem keepsBeyond_low (hm : m = mountOf m.bpb) {a : ℕ} (ha : a < m.rootStart) (sector : Sector) :
    KeepsBeyond m d (Function.update d (a % 2 ^ 32 % 2 ^ 28) sector) := by
  intro c k hc hin hk
  have hu : m.Usable := ⟨hm, by omega⟩
  have h2 : 2 ≤ c := by
    unfold InBuf at hin
    omega
  have hdata := hu.dataStart_eq
  have hlow := hu.dataStart_le_clusterLba h2 hc hk
  have hlt := hu.clusterLba_lt h2 hc hk
  refine Function.update_of_ne ?_ _ _
  omega

/-- A write to a cluster whose entry lies in the array. -/
theorem keepsBeyond_cluster (hm : m = mountOf m.bpb) {c k : ℕ} (h2 : 2 ≤ c) (hin : InBuf c)
    (hk : k < m.spc) (sector : Sector) :
    KeepsBeyond m d (Function.update d (m.clusterLba c k % 2 ^ 28) sector) := by
  intro c' k' hc' hin' hk'
  have hu : m.Usable := ⟨hm, by omega⟩
  have hle : c < 65536 ∧ 2 ≤ c' := by
    unfold InBuf at hin hin'
    omega
  rw [Nat.mod_eq_of_lt (hu.clusterLba_lt h2 hle.1 hk),
    Nat.mod_eq_of_lt (hu.clusterLba_lt hle.2 hc' hk')]
  refine Function.update_of_ne (fun heq => hin' ?_) _ _
  rw [(hu.clusterLba_inj hle.2 hc' hk' h2 hle.1 hk heq).1]
  exact hin

/-- A write to the first sector of such a cluster, which is written even without one. -/
theorem keepsBeyond_first (hm : m = mountOf m.bpb) {c : ℕ} (h2 : 2 ≤ c) (hin : InBuf c)
    (sector : Sector) :
    KeepsBeyond m d (Function.update d (m.clusterLba c 0 % 2 ^ 28) sector) := fun c' k hc hin' hk =>
  keepsBeyond_cluster hm h2 hin (Nat.zero_lt_of_lt hk) sector c' k hc hin' hk

theorem writeFat_meets (hm : m = mountOf m.bpb) :
    Prog.Meets bad (fun _ d' => KeepsBeyond m d d') (writeFat m fatBuf) d := by
  have hcopy (start left s : ℕ) (h : start + s + left ≤ m.rootStart) (d : Disk) :
      Prog.Meets bad (fun _ d' => KeepsBeyond m d d') (writeFatCopy fatBuf start left s) d := by
    induction left generalizing s d with
    | zero => exact .refl m d
    | succ left ih =>
        refine (ataWrite_meets _ _).bind fun r d' hwritten => ?_
        have hfirst : KeepsBeyond m d d' := by
          rcases hwritten with rfl | rfl
          · exact .refl m d'
          · exact keepsBeyond_low hm (by omega) _
        refine meets_ite (fun _ => hfirst) fun _ => ?_
        exact (ih (s + 1) (by omega) d').mono fun _ _ hrest => hfirst.trans hrest
  have hcopies (left f : ℕ) (hf : f + left ≤ m.bpb.fatCount.toNat) (d : Disk) :
      Prog.Meets bad (fun _ d' => KeepsBeyond m d d') (writeFatCopies m fatBuf left f) d := by
    induction left generalizing f d with
    | zero => exact .refl m d
    | succ left ih =>
        have hroot : m.rootStart =
            m.fatStart + m.bpb.fatCount.toNat * m.bpb.sectorsPerFat.toNat := by
          rw [hm]
          rfl
        have hmul : (f + 1) * m.bpb.sectorsPerFat.toNat ≤
            m.bpb.fatCount.toNat * m.bpb.sectorsPerFat.toNat := Nat.mul_le_mul_right _ (by omega)
        rw [Nat.succ_mul] at hmul
        have hsecs := m.fatSecs_le_sectorsPerFat
        refine (hcopy _ m.fatSecs 0 (by omega) d).bind fun r d' hfirst => ?_
        refine meets_ite (fun _ => hfirst) fun _ => ?_
        exact (ih (f + 1) (by omega) d').mono fun _ _ hrest => hfirst.trans hrest
  exact hcopies _ 0 (by omega) d

/-! ## Free clusters -/

/-- The search for a free cluster stays in the array, if that matters: the table is short, or
one of the entries in the array is free. -/
def FreeSafe (bad : Fault → Prop) (m : Mount) (fatBuf : FatBuf) : Prop :=
  bad .outOfBounds → m.fatSecs < 18 ∨ (freeBelow 6142 (fatNextCluster fatBuf)).Nonempty

/-- The searches for the clusters of a file stay in the array: the table is short, or its
entries in the array supply the clusters. -/
def RoomSafe (bad : Fault → Prop) (m : Mount) (fatBuf : FatBuf) (prev bytesLeft : ℕ) : Prop :=
  bad .outOfBounds → m.fatSecs < 18 ∨ ∃ n, bytesLeft ≤ n * (512 * m.spc) ∧
    n ≤ capacity 6142 prev (fatNextCluster fatBuf)

theorem totalClusters_of_short (h : m.fatSecs < 18) : m.totalClusters ≤ 5802 := by
  unfold Mount.totalClusters
  omega

theorem totalClusters_of_full (h : ¬ m.fatSecs < 18) : m.totalClusters = 6144 := by
  have := m.fatSecs_le
  unfold Mount.totalClusters
  omega

/-- A free entry in the array is found there, also by the search of the whole table. -/
theorem find_in_array (hfree : (freeBelow 6142 (fatNextCluster fatBuf)).Nonempty) :
    fatFindFreeCluster fatBuf 6144 ≠ 0 ∧ fatFindFreeCluster fatBuf 6144 < 6144 ∧
      fatFindFreeCluster fatBuf 6142 = fatFindFreeCluster fatBuf 6144 := by
  obtain ⟨c, hc⟩ := hfree
  obtain ⟨⟨h2, hlt⟩, hzero⟩ := mem_freeBelow.mp hc
  obtain ⟨hne, hle⟩ := @fatFindFreeCluster_le fatBuf 6144 c h2 (by omega) hzero
  obtain ⟨hne', hle'⟩ := @fatFindFreeCluster_le fatBuf 6142 c h2 hlt hzero
  obtain ⟨hfound2, -, hfound, hfirst⟩ := fatFindFreeCluster_pos rfl hne
  obtain ⟨hfound2', -, hfound', hfirst'⟩ := fatFindFreeCluster_pos rfl hne'
  refine ⟨hne, by omega, ?_⟩
  rcases Nat.lt_trichotomy (fatFindFreeCluster fatBuf 6142) (fatFindFreeCluster fatBuf 6144)
    with hbelow | heq | habove
  · exact absurd hfound' (hfirst _ hfound2' hbelow)
  · exact heq
  · exact absurd hfound (hfirst' _ hfound2 habove)

theorem findFreeCluster_meets (h : FreeSafe bad m fatBuf) :
    Prog.Meets bad (fun c d' => d' = d ∧ c = fatFindFreeCluster fatBuf m.totalClusters ∧
      (c ≠ 0 → 2 ≤ c ∧ InBuf c)) (findFreeCluster fatBuf m.totalClusters) d := by
  unfold findFreeCluster
  dsimp only
  refine meets_ite (fun hin => ⟨rfl, rfl, fun hne => ?_⟩) fun hout hbad => hout ?_
  · rw [if_neg hne] at hin
    exact ⟨(fatFindFreeCluster_pos rfl hne).1, hin⟩
  · unfold InBuf
    by_cases hshort : m.fatSecs < 18
    · have hlt := totalClusters_of_short hshort
      split_ifs with hzero
      · omega
      · have := (fatFindFreeCluster_pos rfl hzero).2.1
        omega
    · obtain ⟨hne, hlt, -⟩ := find_in_array ((h hbad).resolve_left hshort)
      rw [totalClusters_of_full hshort, if_neg hne]
      omega

/-! ## The data of a file -/

theorem writeSectors_meets (hm : m = mountOf m.bpb) {c : ℕ} (h2 : 2 ≤ c) (hin : InBuf c)
    (data : ℕ → UInt8) (left s bytesLeft offset : ℕ) (hs : s + left ≤ m.spc) :
    Prog.Meets bad (fun r d' => KeepsBeyond m d d' ∧ ∀ b, r = some b → b = bytesLeft - 512 * left)
      (writeSectors data (m.clusterLba c 0) left s bytesLeft offset) d := by
  induction left generalizing s bytesLeft offset d with
  | zero =>
      refine ⟨.refl m d, fun b hb => ?_⟩
      rw [← Option.some.inj hb, Nat.mul_zero, Nat.sub_zero]
  | succ left ih =>
      rw [writeSectors, Mount.clusterLba_add]
      refine (ataWrite_meets _ _).bind fun r d' hwritten => ?_
      have hfirst : KeepsBeyond m d d' := by
        rcases hwritten with rfl | rfl
        · exact .refl m d'
        · exact keepsBeyond_cluster hm h2 hin (by omega) _
      refine meets_ite (fun _ => ⟨hfirst, nofun⟩) fun _ => ?_
      refine meets_ite (fun hdone => ⟨hfirst, fun b hb => ?_⟩) fun _ => ?_
      · rw [← Option.some.inj hb]
        split_ifs at hdone <;> omega
      · refine (ih (s + 1) _ _ (by omega)).mono fun r d'' hr => ⟨hfirst.trans hr.1, fun b hb => ?_⟩
        have hleft := hr.2 b hb
        split_ifs at hleft <;> omega

/-- What the allocation loop knows of the cluster it links behind. -/
def Linked (total : ℕ) (fatBuf : FatBuf) (prev : ℕ) : Prop :=
  prev ≠ 0 → 2 ≤ prev ∧ prev < total + 2 ∧ fatNextCluster fatBuf prev ≠ 0

/-- A cluster that was taken can be linked behind. -/
theorem Linked.take {total prev c : ℕ} (hfind : fatFindFreeCluster fatBuf total = c) (hne : c ≠ 0) :
    Linked total (takeCluster fatBuf prev c) c := by
  intro _
  obtain ⟨h2, hlt, -, -⟩ := fatFindFreeCluster_pos hfind hne
  refine ⟨h2, hlt, ?_⟩
  rw [fatNextCluster_takeCluster, if_pos rfl]
  decide

/-- With room for some bytes there is a free cluster, and with it taken room for the others. -/
theorem RoomSafe.take {prev bytesLeft : ℕ} (h : RoomSafe bad m fatBuf prev bytesLeft)
    (hprev : bad .outOfBounds → m.fatSecs < 18 ∨ Linked 6142 fatBuf prev) (hpos : bytesLeft ≠ 0) :
    FreeSafe bad m fatBuf ∧ ∀ c, c = fatFindFreeCluster fatBuf m.totalClusters → c ≠ 0 →
      RoomSafe bad m (takeCluster fatBuf prev c) c (bytesLeft - 512 * m.spc) ∧
        (bad .outOfBounds → m.fatSecs < 18 ∨ Linked 6142 (takeCluster fatBuf prev c) c) := by
  have hfree (hbad : bad .outOfBounds) (hfull : ¬ m.fatSecs < 18) :
      (freeBelow 6142 (fatNextCluster fatBuf)).Nonempty := by
    obtain ⟨n, hbytes, hroom⟩ := (h hbad).resolve_left hfull
    by_contra hnone
    rw [Finset.not_nonempty_iff_eq_empty] at hnone
    rw [capacity, hnone, Finset.card_empty, if_neg fun hin => Finset.notMem_empty _ hin.1] at hroom
    obtain rfl : n = 0 := by omega
    omega
  refine ⟨fun hbad => or_iff_not_imp_left.mpr (hfree hbad), fun c hfind hne => ?_⟩
  have hfound (hbad : bad .outOfBounds) (hfull : ¬ m.fatSecs < 18) :
      fatFindFreeCluster fatBuf 6142 = c := by
    rw [(find_in_array (hfree hbad hfull)).2.2, hfind, totalClusters_of_full hfull]
  constructor
  · refine fun hbad => or_iff_not_imp_left.mpr fun hfull => ?_
    obtain ⟨n, hbytes, hroom⟩ := (h hbad).resolve_left hfull
    obtain ⟨k, rfl⟩ : ∃ k, n = k + 1 := Nat.exists_eq_succ_of_ne_zero fun hzero => by
      rw [hzero, Nat.zero_mul] at hbytes
      omega
    have hless := capacity_takeCluster (hfound hbad hfull) hne ((hprev hbad).resolve_left hfull)
      (by decide)
    rw [Nat.succ_mul] at hbytes
    exact ⟨k, by omega, by omega⟩
  · exact fun hbad => or_iff_not_imp_left.mpr fun hfull => .take (hfound hbad hfull) hne

/-- The table has not enough free clusters for some bytes. -/
def Short (m : Mount) (fatBuf : FatBuf) (prev bytesLeft : ℕ) : Prop :=
  capacity m.totalClusters prev (fatNextCluster fatBuf) * (512 * m.spc) < bytesLeft

/-- **The allocation rule.** -/
theorem writeClusters_meets (hm : m = mountOf m.bpb) (hfuel : ¬ bad .outOfFuel)
    (data : ℕ → UInt8) (size fuel bytesLeft first prev : ℕ) (fatBuf : FatBuf) (taken : List ℕ)
    (h : RoomSafe bad m fatBuf prev bytesLeft)
    (hprev : bad .outOfBounds → m.fatSecs < 18 ∨ Linked 6142 fatBuf prev)
    (hlink : Linked m.totalClusters fatBuf prev) :
    Prog.Meets bad (fun alloc d' => KeepsBeyond m d d' ∧
      (alloc.complete = true → ¬ Short m fatBuf prev bytesLeft))
      (writeClusters m m.totalClusters data size fuel bytesLeft first prev fatBuf taken) d := by
  induction fuel generalizing bytesLeft first prev fatBuf taken d with
  | zero => exact hfuel
  | succ fuel ih =>
      refine meets_ite (fun hzero => ⟨.refl m d, fun _ => ?_⟩) fun hpos => ?_
      · rw [hzero]
        exact Nat.not_lt_zero _
      obtain ⟨hfree, htake⟩ := h.take hprev hpos
      refine (findFreeCluster_meets hfree).bind ?_
      rintro c _ ⟨rfl, hfind, hfound⟩
      refine meets_ite (fun _ => ⟨.refl m _, nofun⟩) fun hne => ?_
      obtain ⟨h2, hin⟩ := hfound hne
      refine (writeSectors_meets hm h2 hin data m.spc 0 bytesLeft _ (by omega)).bind ?_
      rintro r d' ⟨hkept, hless⟩
      cases r with
      | none => exact ⟨hkept, nofun⟩
      | some left =>
          obtain rfl := hless left rfl
          obtain ⟨hroom, hlinked⟩ := htake c hfind hne
          refine (ih _ _ c _ _ hroom hlinked (.take hfind.symm hne)).mono
            fun alloc _ hrest => ⟨hkept.trans hrest.1, fun hcomplete => ?_⟩
          have hmore := hrest.2 hcomplete
          have hcap := capacity_takeCluster hfind.symm hne hlink m.totalClusters_le
          unfold Short at hmore ⊢
          rw [← hcap, Nat.succ_mul]
          omega

/-! ## The prologue -/

/-- The rule for the prologue: a body runs on the same disk with the table that it loaded. -/
theorem withFat_meets {α : Type} {Q : α × Driver → Disk → Prop} {st : Driver} {owner : Owner}
    {failed : α} {body : FatBuf → FatProg (α × Driver)} (hst : Q (failed, st) d)
    (hfailed : ∀ fatBuf, Q (failed, st.keepBuf owner fatBuf) d)
    (hbody : Prog.Meets bad Q (body (loadedTable st.mount d (st.fatBuf owner))) d) :
    Prog.Meets bad Q (withFat st owner failed body) d := by
  unfold withFat
  refine meets_ite (fun _ => ?_) fun _ => hst
  refine (loadFat_meets _ 0 _).bind ?_
  rintro ⟨r, fatBuf⟩ _ ⟨rfl, hloaded⟩
  refine meets_ite (fun _ => hfailed fatBuf) fun hzero => ?_
  obtain rfl := not_not.mp hzero
  have hsame := (hloaded rfl).unique (loadFat_returns_loadedTable st.mount _ _)
  rw [(Prod.mk.inj hsame.1).2]
  exact hbody

end Pieces

/-! ## The calls -/

/-- The volume and the current directory stay. -/
structure Stays (st st' : Driver) : Prop where
  mount : st'.mount = st.mount
  currentDirCluster : st'.currentDirCluster = st.currentDirCluster

/-- What `fat_cd` may change: the current directory is a 16-bit number, and in a root without
sectors nothing is found to go to. -/
structure Moves (st st' : Driver) : Prop where
  mount : st'.mount = st.mount
  lt : st'.currentDirCluster < 2 ^ 16
  emptyRoot : st.mount.rootSectors = 0 → st.currentDirCluster = 0 → st'.currentDirCluster = 0

theorem Stays.moves {st st' : Driver} (h : Stays st st') (hdirc : st.currentDirCluster < 2 ^ 16) :
    Moves st st' :=
  ⟨h.mount, h.currentDirCluster ▸ hdirc, fun _ hzero => h.currentDirCluster.trans hzero⟩

theorem stays_keepBuf (st : Driver) (owner : Owner) (fatBuf : FatBuf) :
    Stays st (st.keepBuf owner fatBuf) := ⟨rfl, rfl⟩

/-- A slot for a new record is found without a bad fault, also when there is none. -/
abbrev PlaceSafe (bad : Fault → Prop) (m : Mount) (dirc : ℕ) (d : Disk) : Prop :=
  SearchSafe bad m dirc freeVerdict d

/-- What fits the array there cannot leave it: a write to other clusters keeps a search. -/
theorem SearchSafe.of_keepsBeyond {bad : Fault → Prop} {m : Mount} {dirc : ℕ}
    {verdict : RawDirEntry → Verdict} {d d' : Disk} (h : SearchSafe bad m dirc verdict d)
    (hdirc : dirc < 2 ^ 16) (hkept : KeepsBeyond m d d') : SearchSafe bad m dirc verdict d' := by
  rcases h with hwalk | ⟨k, hk, i, hi, hends⟩
  · exact Or.inl hwalk
  · by_cases hin : InBuf dirc
    · refine Or.inl fun s => Or.inr ⟨fun _ => by omega, fun _ => Or.inr ?_⟩
      rw [Nat.mod_eq_of_lt hdirc]
      exact hin
    · refine Or.inr ⟨k, hk, i, hi, ?_⟩
      rw [hkept dirc k hdirc hin hk]
      exact hends

/-- Storing a file meets no bad fault: there is room for it without leaving the array, and a
slot is found, unless there are too few clusters to come to that. -/
def StoreSafe (bad : Fault → Prop) (st : Driver) (size : ℕ) (d : Disk) : Prop :=
  RoomSafe bad st.mount (loadedTable st.mount d (st.fatBuf .write)) 0 size ∧
    (PlaceSafe bad st.mount st.currentDirCluster d ∨
      Short st.mount (loadedTable st.mount d (st.fatBuf .write)) 0 size)

/-- Making a directory meets no bad fault. -/
def MkdirSafe (bad : Fault → Prop) (st : Driver) (d : Disk) : Prop :=
  FreeSafe bad st.mount (loadedTable st.mount d (st.fatBuf .mkdir)) ∧
    (PlaceSafe bad st.mount st.currentDirCluster d ∨
      fatFindFreeCluster (loadedTable st.mount d (st.fatBuf .mkdir)) st.mount.totalClusters = 0)

section Calls

variable {bad : Fault → Prop} (hfuel : ¬ bad .outOfFuel) {st : Driver}
  (hdirc : st.currentDirCluster < 2 ^ 16) {d : Disk} (fuel : ℕ)

include hfuel hdirc

theorem fatList_meets {max : ℤ} (h : ListSafe bad st.mount st.currentDirCluster max d) :
    Prog.Meets bad (fun r _ => Stays st r.2) (fatList fuel st max) d := by
  refine withFat_meets ⟨rfl, rfl⟩ (fun _ => stays_keepBuf st ..) ?_
  exact (listSectors_meets hfuel hdirc h fuel).bind fun _ _ _ => stays_keepBuf st ..

theorem fatRead_meets {name : CString} (buf : ℕ → UInt8) (bufSize : ℕ)
    (h : SearchSafe bad st.mount st.currentDirCluster (fileVerdict name) d) :
    Prog.Meets bad (fun r _ => Stays st r.2) (fatRead fuel st name buf bufSize) d := by
  refine withFat_meets ⟨rfl, rfl⟩ (fun _ => stays_keepBuf st ..) ?_
  refine (findSlot_meets hfuel hdirc h fuel).bind ?_
  rintro found _ ⟨rfl, -⟩
  cases found with
  | none => exact stays_keepBuf st ..
  | some hit =>
      refine meets_ite (fun _ => stays_keepBuf st ..) fun _ => ?_
      refine (readChain_meets hfuel _ bufSize fuel _ 0 buf).bind ?_
      rintro ⟨bytesRead | _, buf⟩ _ rfl <;> exact stays_keepBuf st ..

theorem removeEntry_meets {owner : Owner} {verdict : RawDirEntry → Verdict}
    (hm : st.mount = mountOf st.mount.bpb)
    (h : SearchSafe bad st.mount st.currentDirCluster verdict d) :
    Prog.Meets bad (fun r _ => Stays st r.2) (removeEntry owner verdict fuel st) d := by
  refine withFat_meets ⟨rfl, rfl⟩ (fun _ => stays_keepBuf st ..) ?_
  refine (findSlot_meets hfuel hdirc h fuel).bind ?_
  rintro found _ ⟨rfl, hhit⟩
  cases found with
  | none => exact stays_keepBuf st ..
  | some hit =>
      refine (freeChain_meets hfuel fuel _ _).bind ?_
      rintro freed _ rfl
      refine (writeFat_meets hm).bind fun _ _ _ => ?_
      exact (writeDirSector_meets (hhit hit rfl)).bind fun _ _ _ => stays_keepBuf st ..

theorem fatRename_meets {oldName : CString} (newName : CString)
    (h : SearchSafe bad st.mount st.currentDirCluster (fileVerdict oldName) d) :
    Prog.Meets bad (fun r _ => Stays st r.2) (fatRename fuel st oldName newName) d := by
  unfold fatRename
  refine withFat_meets ⟨rfl, rfl⟩ (fun _ => stays_keepBuf st ..) ?_
  refine (findSlot_meets hfuel hdirc h fuel).bind ?_
  rintro found _ ⟨rfl, hhit⟩
  cases found with
  | none => exact stays_keepBuf st ..
  | some hit => exact (writeDirSector_meets (hhit hit rfl)).bind fun _ _ _ => stays_keepBuf st ..

theorem storeFile_meets (hm : st.mount = mountOf st.mount.bpb) (name : CString)
    (data : ℕ → UInt8) {size : ℕ} (h : StoreSafe bad st size d) :
    Prog.Meets bad (fun r _ => Stays st r.2) (storeFile fuel st name data size) d := by
  refine withFat_meets ⟨rfl, rfl⟩ (fun _ => stays_keepBuf st ..) ?_
  have halloc := writeClusters_meets (d := d) hm hfuel data size fuel size 0 0 _ [] h.1
    (fun _ => Or.inr fun hne => absurd rfl hne) fun hne => absurd rfl hne
  refine halloc.bind fun alloc d₁ hkept => ?_
  refine meets_ite (fun hcomplete => ?_) fun _ => stays_keepBuf st ..
  have hplace := h.2.resolve_right (hkept.2 hcomplete)
  refine (writeFat_meets hm).bind fun r d₂ hkept' => ?_
  refine meets_ite (fun _ => stays_keepBuf st ..) fun _ => ?_
  have hplace' := hplace.of_keepsBeyond hdirc (hkept.1.trans hkept')
  exact (placeEntry_meets hfuel hdirc hplace' fuel _).bind fun _ _ _ => stays_keepBuf st ..

theorem fatMkdir_meets (hm : st.mount = mountOf st.mount.bpb) (name : CString)
    (h : MkdirSafe bad st d) :
    Prog.Meets bad (fun r _ => Stays st r.2) (fatMkdir fuel st name) d := by
  have htaken : Prog.Meets bad (fun r _ => Stays st r.2) (fatMkdirTaken fuel st name) d := by
    refine withFat_meets ⟨rfl, rfl⟩ (fun _ => stays_keepBuf st ..) ?_
    refine (findFreeCluster_meets h.1).bind ?_
    rintro c _ ⟨rfl, hfind, hfound⟩
    refine meets_ite (fun _ => stays_keepBuf st ..) fun hne => ?_
    obtain ⟨h2, hin⟩ := hfound hne
    have hplace := h.2.resolve_right (hfind ▸ hne)
    refine (writeFat_meets hm).bind fun r d₁ hkept => ?_
    refine meets_ite (fun _ => stays_keepBuf st ..) fun _ => ?_
    refine (ataWrite_meets _ _).bind fun r' d₂ hwritten => ?_
    refine meets_ite (fun _ => stays_keepBuf st ..) fun _ => ?_
    have hmore : KeepsBeyond st.mount d₁ d₂ := by
      rcases hwritten with rfl | rfl
      · exact .refl _ _
      · exact keepsBeyond_first hm h2 hin _
    have hplace' := hplace.of_keepsBeyond hdirc (hkept.trans hmore)
    exact (placeEntry_meets hfuel hdirc hplace' fuel _).bind fun _ _ _ => stays_keepBuf st ..
  exact htaken.bind fun _ _ h => h

theorem fatWrite_meets (hm : st.mount = mountOf st.mount.bpb) {name : CString}
    (data : ℕ → UInt8) {size : ℕ}
    (h : SearchSafe bad st.mount st.currentDirCluster (fileVerdict name) d)
    (hstore : ∀ answers r st' d', (fatDelete fuel st name).run answers d = (.ok (r, st'), d') →
      StoreSafe bad st' size d') :
    Prog.Meets bad (fun r _ => Stays st r.2) (fatWrite fuel st name data size) d := by
  have htaken :
      Prog.Meets bad (fun r _ => Stays st r.2) (fatWriteTaken fuel st name data size) d := by
    refine meets_ite (fun _ => ?_) fun _ => ⟨rfl, rfl⟩
    have hdelete : Prog.Meets bad (fun r d' => Stays st r.2 ∧ StoreSafe bad r.2 size d')
        (fatDelete fuel st name) d :=
      (removeEntry_meets hfuel hdirc fuel hm h).and_run fun answers value d' hrun =>
        hstore answers value.1 value.2 d' hrun
    refine hdelete.bind fun r d₁ hr => ?_
    obtain ⟨hstays, hsafe⟩ := hr
    have hdirc' : r.2.currentDirCluster < 2 ^ 16 := hstays.currentDirCluster ▸ hdirc
    have hm' : r.2.mount = mountOf r.2.mount.bpb := hstays.mount ▸ hm
    exact (storeFile_meets hfuel hdirc' fuel hm' name data hsafe).mono fun r' _ hr' =>
      ⟨hr'.mount.trans hstays.mount, hr'.currentDirCluster.trans hstays.currentDirCluster⟩
  exact htaken.bind fun _ _ h => h

/-- `fat_cd` may change the current directory, to the root or to a cluster that a record of the
current one names. -/
theorem fatCd_meets (hpath : bad .outOfBounds → st.currentPath.length ≤ 1) {name : CString}
    (h : name.chars = [0x2E, 0x2E] ∨
      SearchSafe bad st.mount st.currentDirCluster (dirVerdict name) d) :
    Prog.Meets bad (fun r _ => Moves st r.2) (fatCd fuel st name) d := by
  have hkept (fatBuf : FatBuf) : Moves st (st.keepBuf .cd fatBuf) :=
    (stays_keepBuf st .cd fatBuf).moves hdirc
  refine meets_ite (fun _ => ⟨rfl, Nat.two_pow_pos 16, fun _ _ => rfl⟩) fun hnot => ?_
  unfold withFat
  refine meets_ite (fun hmounted => ?_) fun _ => (show Stays st st from ⟨rfl, rfl⟩).moves hdirc
  have hsearch := h.resolve_left fun hup => hnot (by rw [hmounted, hup]; rfl)
  refine (loadFat_meets _ 0 _).bind ?_
  rintro ⟨r, fatBuf⟩ _ ⟨rfl, -⟩
  refine meets_ite (fun _ => hkept fatBuf) fun _ => ?_
  by_cases hempty : st.mount.rootSectors = 0 ∧ st.currentDirCluster = 0
  · rw [hempty.2]
    dsimp only
    rcases findSlot_emptyRoot hempty.1 fatBuf (dirVerdict name) fuel with hstop | hnone
    · rw [hstop]
      exact hfuel
    · rw [hnone]
      exact hkept fatBuf
  · refine (findSlot_meets hfuel hdirc hsearch fuel).bind ?_
    rintro found _ ⟨rfl, -⟩
    cases found with
    | none => exact hkept fatBuf
    | some hit =>
        refine meets_ite (fun _ => ⟨rfl, hit.entry.firstCluster.toNat_lt,
          fun hroot hzero => absurd ⟨hroot, hzero⟩ hempty⟩) fun hlong hbad => hlong ?_
        have hname := cstr_makeName_length_le hit.entry.name hit.entry.ext
        rw [cdPath, if_pos (hpath hbad), List.length_cons]
        omega

end Calls

/-- A call meets no bad fault: its search of the current directory meets none, and neither
does what it goes on with. `fat_write` goes on from what its `fat_delete` leaves. -/
def Call.Safe (bad : Fault → Prop) (fuel : ℕ) (st : Driver) (d : Disk) : Call → Prop
  | .list max => ListSafe bad st.mount st.currentDirCluster max d
  | .read name _ _ => SearchSafe bad st.mount st.currentDirCluster (fileVerdict name) d
  | .op (.write name _ size) =>
      SearchSafe bad st.mount st.currentDirCluster (fileVerdict name) d ∧
        ∀ answers r st' d', (fatDelete fuel st name).run answers d = (.ok (r, st'), d') →
          StoreSafe bad st' size d'
  | .op (.delete name) => SearchSafe bad st.mount st.currentDirCluster (fileVerdict name) d
  | .op (.rename oldName _) => SearchSafe bad st.mount st.currentDirCluster (fileVerdict oldName) d
  | .op (.mkdir _) => MkdirSafe bad st d
  | .op (.rmdir name) => SearchSafe bad st.mount st.currentDirCluster (dirVerdict name) d
  | .op (.cd name) => name.chars = [0x2E, 0x2E] ∨
      SearchSafe bad st.mount st.currentDirCluster (dirVerdict name) d

theorem fatDelete_run_stays {st st' : Driver} {d d' : Disk} {fuel : ℕ} {name : CString}
    {answers : Answers} {r : ℤ} (hm : st.mount = mountOf st.mount.bpb)
    (hdirc : st.currentDirCluster < 2 ^ 16)
    (h : (fatDelete fuel st name).run answers d = (.ok (r, st'), d')) : Stays st st' := by
  have hsafe : SearchSafe (fun _ => False) st.mount st.currentDirCluster (fileVerdict name) d :=
    Or.inl fun _ => Or.inr ⟨False.elim, False.elim⟩
  have hmeets : Prog.Meets (fun _ => False) (fun r _ => Stays st r.2) (fatDelete fuel st name) d :=
    removeEntry_meets id hdirc fuel hm hsafe
  have hkept := meets_iff_run.mp hmeets answers
  rw [h] at hkept
  exact hkept

/-- When every sector of the current directory is found without a bad fault, and leaving the
array is none, every call is safe. -/
theorem Call.safe_of_walk {bad : Fault → Prop} {st : Driver} {d : Disk} {fuel : ℕ}
    (hm : st.mount = mountOf st.mount.bpb) (hdirc : st.currentDirCluster < 2 ^ 16)
    (hbounds : ¬ bad .outOfBounds) (hwalk : ∀ s, WalkSafe bad st.mount st.currentDirCluster s)
    (call : Call) : call.Safe bad fuel st d := by
  have hsearch (verdict : RawDirEntry → Verdict) (d : Disk) :
      SearchSafe bad st.mount st.currentDirCluster verdict d := Or.inl hwalk
  cases call with
  | list max => exact Or.inl hwalk
  | read name buf bufSize => exact hsearch _ d
  | op o =>
      cases o with
      | write name data size =>
          refine ⟨hsearch _ d, fun answers r st' d' hrun =>
            ⟨fun hbad => absurd hbad hbounds, Or.inl ?_⟩⟩
          have hstays := fatDelete_run_stays hm hdirc hrun
          rw [hstays.mount, hstays.currentDirCluster]
          exact hsearch _ d'
      | delete name => exact hsearch _ d
      | rename oldName newName => exact hsearch _ d
      | mkdir name => exact ⟨fun hbad => absurd hbad hbounds, Or.inl (hsearch _ d)⟩
      | rmdir name => exact hsearch _ d
      | cd name => exact Or.inr (hsearch _ d)

/-- **The rule for calls.** -/
theorem Call.run_meets {bad : Fault → Prop} (hfuel : ¬ bad .outOfFuel) {st : Driver} {d : Disk}
    {fuel : ℕ} {call : Call} (hm : st.mount = mountOf st.mount.bpb)
    (hdirc : st.currentDirCluster < 2 ^ 16)
    (hpath : bad .outOfBounds → st.currentPath.length ≤ 1) (h : call.Safe bad fuel st d) :
    Prog.Meets bad (fun r _ => Moves st r.2) (call.run fuel st) d := by
  have hstays {α : Type} (r : α × Driver) (_ : Disk) (hr : Stays st r.2) : Moves st r.2 :=
    hr.moves hdirc
  cases call with
  | list max => exact (fatList_meets hfuel hdirc fuel h).bind fun r d' hr => hstays r d' hr
  | read name buf bufSize =>
      exact (fatRead_meets hfuel hdirc fuel buf bufSize h).bind fun r d' hr => hstays r d' hr
  | op o =>
      cases o with
      | write name data size => exact (fatWrite_meets hfuel hdirc fuel hm data h.1 h.2).mono hstays
      | delete name => exact (removeEntry_meets hfuel hdirc fuel hm h).mono hstays
      | rename oldName newName => exact (fatRename_meets hfuel hdirc fuel newName h).mono hstays
      | mkdir name => exact (fatMkdir_meets hfuel hdirc fuel hm name h).mono hstays
      | rmdir name => exact (removeEntry_meets hfuel hdirc fuel hm h).mono hstays
      | cd name => exact fatCd_meets hfuel hdirc fuel hpath h

end MasterOS.Fat
