/-
# Volumes

What a disk means to the driver. The allocation table on the disk links clusters
into chains; a directory is a sequence of slots over the root region or over a
chain; and the directories that can be reached from the root form a forest, whose
live entries are the files and directories of the volume.

A volume is sound when every live entry heads a proper chain of its own, and well
formed when in addition the copies of the table agree and nothing is hidden behind
the end of a directory.
-/

import MasterOS.Fat.Driver
import MasterOS.Math.Chain
import MasterOS.Math.Forest

namespace MasterOS.Fat

open MasterOS.Math

/-! ## Geometry -/

/-- The layout of a mounted volume: as `fat_init` computes it, with 512-byte
sectors and no field zero that the layout divides or starts by. -/
structure Mount.Valid (m : Mount) : Prop where
  mounted : m = mountOf m.bpb
  bytesPerSector : m.bpb.bytesPerSector.toNat = 512
  spc_pos : 1 ≤ m.spc
  fatCount_pos : 1 ≤ m.bpb.fatCount.toNat
  reserved_pos : 1 ≤ m.bpb.reservedSectors.toNat

theorem Mount.spc_lt (m : Mount) : m.spc < 256 := m.bpb.sectorsPerCluster.toNat_lt

/-- A layout as `fat_init` computes it, of any parameter block that has sectors in its
clusters. -/
structure Mount.Usable (m : Mount) : Prop where
  mounted : m = mountOf m.bpb
  spc_pos : 1 ≤ m.spc

namespace Mount.Usable

variable {m : Mount} (hu : m.Usable)
include hu

theorem initialized : m.initialized = true := by rw [hu.mounted]; rfl

theorem fatStart_eq : m.fatStart = m.bpb.reservedSectors.toNat := by
  conv_lhs => rw [hu.mounted]
  rfl

theorem rootStart_eq :
    m.rootStart = m.fatStart + m.bpb.fatCount.toNat * m.bpb.sectorsPerFat.toNat := by
  rw [hu.fatStart_eq]
  conv_lhs => rw [hu.mounted]
  rfl

theorem dataStart_eq : m.dataStart = m.rootStart + m.rootSectors := by
  rw [hu.mounted]
  rfl

/-- Even with sectors of one byte the root directory is short. -/
theorem rootSectors_lt : m.rootSectors < 2 ^ 21 := by
  have hroot := m.bpb.rootEntryCount.toNat_lt
  have heq : m.rootSectors = (m.bpb.rootEntryCount.toNat * 32 +
      (m.bpb.bytesPerSector.toNat - 1)) / m.bpb.bytesPerSector.toNat := by
    conv_lhs => rw [hu.mounted]
    rfl
  rw [heq]
  rcases Nat.eq_zero_or_pos m.bpb.bytesPerSector.toNat with hzero | hpos
  · rw [hzero, Nat.div_zero]
    decide
  · have hmul := Nat.le_mul_of_pos_right 2097120 hpos
    rw [Nat.div_lt_iff_lt_mul hpos, show 2 ^ 21 = 2097120 + 32 by decide, Nat.add_mul]
    omega

theorem rootStart_le : m.rootStart ≤ 16776960 := by
  have hres := m.bpb.reservedSectors.toNat_lt
  have hmul : m.bpb.fatCount.toNat * m.bpb.sectorsPerFat.toNat ≤ 255 * 65535 :=
    Nat.mul_le_mul (by have := m.bpb.fatCount.toNat_lt; omega)
      (by have := m.bpb.sectorsPerFat.toNat_lt; omega)
  rw [hu.rootStart_eq, hu.fatStart_eq]
  omega

/-- The address of a sector of a cluster, without the 32-bit wrap. -/
theorem clusterLba_eq {c k : ℕ} (h2 : 2 ≤ c) (hc : c < 65536) (hk : k < m.spc) :
    m.clusterLba c k = m.dataStart + (c - 2) * m.spc + k := by
  have hspc := m.spc_lt
  have hroot := hu.rootStart_le
  have hsec := hu.rootSectors_lt
  have hdata := hu.dataStart_eq
  have hsplit : (c + 2 ^ 32 - 2) * m.spc = (c - 2) * m.spc + 2 ^ 32 * m.spc := by
    rw [show c + 2 ^ 32 - 2 = c - 2 + 2 ^ 32 by omega, Nat.add_mul]
  have hmul : (c - 2) * m.spc ≤ 65533 * 255 := Nat.mul_le_mul (by omega) (by omega)
  rw [Mount.clusterLba, hsplit]
  omega

theorem clusterLba_lt {c k : ℕ} (h2 : 2 ≤ c) (hc : c < 65536) (hk : k < m.spc) :
    m.clusterLba c k < 2 ^ 28 := by
  have hspc := m.spc_lt
  have hroot := hu.rootStart_le
  have hsec := hu.rootSectors_lt
  have hdata := hu.dataStart_eq
  have hmul : (c - 2) * m.spc ≤ 65533 * 255 := Nat.mul_le_mul (by omega) (by omega)
  rw [hu.clusterLba_eq h2 hc hk]
  omega

theorem dataStart_le_clusterLba {c k : ℕ} (h2 : 2 ≤ c) (hc : c < 65536) (hk : k < m.spc) :
    m.dataStart ≤ m.clusterLba c k := by
  rw [hu.clusterLba_eq h2 hc hk]
  omega

/-- Sectors of clusters do not alias. -/
theorem clusterLba_inj {c c' k k' : ℕ} (h2 : 2 ≤ c) (hc : c < 65536) (hk : k < m.spc)
    (h2' : 2 ≤ c') (hc' : c' < 65536) (hk' : k' < m.spc)
    (heq : m.clusterLba c k = m.clusterLba c' k') : c = c' ∧ k = k' := by
  rw [hu.clusterLba_eq h2 hc hk, hu.clusterLba_eq h2' hc' hk'] at heq
  have hsum : (c - 2) * m.spc + k = (c' - 2) * m.spc + k' := by omega
  have hdiv : (k + (c - 2) * m.spc) / m.spc = (k' + (c' - 2) * m.spc) / m.spc := by
    rw [Nat.add_comm k, Nat.add_comm k', hsum]
  rw [Nat.add_mul_div_right _ _ hu.spc_pos, Nat.add_mul_div_right _ _ hu.spc_pos,
    Nat.div_eq_of_lt hk, Nat.div_eq_of_lt hk'] at hdiv
  have hcc : c = c' := by omega
  subst hcc
  exact ⟨rfl, by omega⟩

end Mount.Usable

namespace Mount.Valid

variable {m : Mount} (hv : m.Valid)
include hv

theorem usable : m.Usable := ⟨hv.mounted, hv.spc_pos⟩

theorem initialized : m.initialized = true := hv.usable.initialized

theorem fatStart_eq : m.fatStart = m.bpb.reservedSectors.toNat := hv.usable.fatStart_eq

theorem rootStart_eq :
    m.rootStart = m.fatStart + m.bpb.fatCount.toNat * m.bpb.sectorsPerFat.toNat :=
  hv.usable.rootStart_eq

theorem dataStart_eq : m.dataStart = m.rootStart + m.rootSectors := hv.usable.dataStart_eq

theorem rootStart_le : m.rootStart ≤ 16776960 := hv.usable.rootStart_le

/-- A copy of the table lies between the start of the tables and the root. -/
theorem fatCopy_lt {f s : ℕ} (hf : f < m.bpb.fatCount.toNat)
    (hs : s < m.bpb.sectorsPerFat.toNat) :
    m.fatStart + f * m.bpb.sectorsPerFat.toNat + s < m.rootStart := by
  have hmul : (f + 1) * m.bpb.sectorsPerFat.toNat ≤
      m.bpb.fatCount.toNat * m.bpb.sectorsPerFat.toNat := Nat.mul_le_mul_right _ hf
  rw [hv.rootStart_eq]
  rw [Nat.add_mul, Nat.one_mul] at hmul
  omega

theorem clusterLba_eq {c k : ℕ} (h2 : 2 ≤ c) (hc : c < 6146) (hk : k < m.spc) :
    m.clusterLba c k = m.dataStart + (c - 2) * m.spc + k :=
  hv.usable.clusterLba_eq h2 (by omega) hk

theorem clusterLba_lt {c k : ℕ} (h2 : 2 ≤ c) (hc : c < 6146) (hk : k < m.spc) :
    m.clusterLba c k < 2 ^ 28 := hv.usable.clusterLba_lt h2 (by omega) hk

theorem dataStart_le_clusterLba {c k : ℕ} (h2 : 2 ≤ c) (hc : c < 6146) (hk : k < m.spc) :
    m.dataStart ≤ m.clusterLba c k := hv.usable.dataStart_le_clusterLba h2 (by omega) hk

/-- Sectors of data clusters do not alias. -/
theorem clusterLba_inj {c c' k k' : ℕ} (h2 : 2 ≤ c) (hc : c < 6146) (hk : k < m.spc)
    (h2' : 2 ≤ c') (hc' : c' < 6146) (hk' : k' < m.spc)
    (heq : m.clusterLba c k = m.clusterLba c' k') : c = c' ∧ k = k' :=
  hv.usable.clusterLba_inj h2 (by omega) hk h2' (by omega) hk' heq

end Mount.Valid

theorem Mount.fatSecs_le (m : Mount) : m.fatSecs ≤ 18 := Nat.min_le_right _ _

theorem Mount.fatSecs_le_sectorsPerFat (m : Mount) :
    m.fatSecs ≤ m.bpb.sectorsPerFat.toNat := Nat.min_le_left _ _

/-! ## The allocation table on the disk -/

/-- The first copy of the table, byte by byte. -/
def fatImage (m : Mount) (d : Disk) : FatBuf := fun o => (d (m.fatStart + o / 512)).byte (o % 512)

/-- The entry of a cluster in the first copy of the table. -/
def fatAt (m : Mount) (d : Disk) (c : ℕ) : ℕ := fatNextCluster (fatImage m d) c

/-- The entry of a cluster lies in the part of the table that the driver loads. -/
def Loaded (m : Mount) (c : ℕ) : Prop := c + c / 2 + 1 < m.fatSecs * 512

/-- A cluster the driver follows: 2..0xFEF, with its entry in the loaded table. -/
def DataCluster (m : Mount) (c : ℕ) : Prop := 2 ≤ c ∧ c ≤ 0xFEF ∧ Loaded m c

instance (m : Mount) (c : ℕ) : Decidable (Loaded m c) := by
  unfold Loaded
  infer_instance

instance (m : Mount) (c : ℕ) : Decidable (DataCluster m c) := by
  unfold DataCluster
  infer_instance

/-- An entry that ends a chain. -/
def EndMark (v : ℕ) : Prop := 0xFF8 ≤ v

/-- `ChainOf m d c l`: on the disk, cluster `c` heads the chain `l`. -/
abbrev ChainOf (m : Mount) (d : Disk) (c : ℕ) (l : List ℕ) : Prop :=
  Chain (fatAt m d) (DataCluster m) EndMark c l

theorem not_dataCluster_of_endMark (m : Mount) : ∀ x, EndMark x → ¬ DataCluster m x := by
  intro x hend hdata
  have := hdata.2.1
  unfold EndMark at hend
  omega

theorem DataCluster.lt {m : Mount} {c : ℕ} (h : DataCluster m c) : c < 4096 := by
  have := h.2.1
  omega

/-- A cluster of a chain is allocated. -/
theorem fatAt_ne_zero_of_mem {m : Mount} {d : Disk} {c x : ℕ} {l : List ℕ}
    (h : ChainOf m d c l) (hx : x ∈ l) : fatAt m d x ≠ 0 := by
  rcases h.next_of_mem hx with hdata | hend
  · have := hdata.1
    omega
  · unfold EndMark at hend
    omega

/-! ## Directories -/

/-- The cluster that holds part `k` of a directory, following the table as the
driver does: a link out of the clusters ends the directory. -/
def dirCluster (next : ℕ → ℕ) (head : ℕ) : ℕ → Option ℕ
  | 0 => some head
  | k + 1 =>
      if next head < 2 ∨ 0xFF8 ≤ next head then none else dirCluster next (next head) k

/-- The address of sector `s` of a directory, where 0 is the root. -/
def dirLba (m : Mount) (next : ℕ → ℕ) (dirc s : ℕ) : Option ℕ :=
  if dirc = 0 then if s < m.rootSectors then some (m.rootStart + s) else none
  else (dirCluster next dirc (s / m.spc)).map fun c => m.clusterLba c (s % m.spc)

/-- Where a directory record lies: a sector and a slot in it. -/
abbrev Loc : Type := ℕ × ℕ

/-- The location of slot `n` of a directory. -/
def slotAt (m : Mount) (next : ℕ → ℕ) (dirc n : ℕ) : Option Loc :=
  (dirLba m next dirc (n / 16)).map fun lba => (lba, n % 16)

/-- The record at a location. -/
def entryAt (d : Disk) (loc : Loc) : RawDirEntry := (d loc.1).entry loc.2

/-- A record that stands for a file or a directory: not the end, not deleted, not a
volume label and not one of the two dot entries of a directory. -/
def RawDirEntry.live (e : RawDirEntry) : Bool :=
  !e.isEnd && !e.isDeleted && !e.isLabel && !(e.isDir && e.startsWithDot)

theorem RawDirEntry.isEnd_of_live {e : RawDirEntry} (h : e.live = true) : e.isEnd = false := by
  cases hend : e.isEnd with
  | false => rfl
  | true => simp [RawDirEntry.live, hend] at h

theorem RawDirEntry.isLabel_of_live {e : RawDirEntry} (h : e.live = true) :
    e.isLabel = false := by
  cases hlabel : e.isLabel with
  | false => rfl
  | true => simp [RawDirEntry.live, hlabel] at h

/-- The chain part a directory's sector lies in is the chain's element. -/
theorem dirCluster_eq_getElem? {m : Mount} {next : ℕ → ℕ} {c : ℕ} {l : List ℕ}
    (h : Chain next (DataCluster m) EndMark c l) (k : ℕ) : dirCluster next c k = l[k]? := by
  induction h generalizing k with
  | last _ hend =>
      cases k with
      | zero => rfl
      | succ k =>
          rw [dirCluster, if_pos (Or.inr (show 0xFF8 ≤ next _ from hend))]
          simp
  | @link c l _ hrest ih =>
      cases k with
      | zero => rfl
      | succ k =>
          have hok := hrest.ok_head
          have hin : ¬ (next c < 2 ∨ 0xFF8 ≤ next c) := by
            have h1 := hok.1
            have h2 := hok.2.1
            omega
          rw [dirCluster, if_neg hin, ih k]
          simp

/-- The address of a directory sector over a chain. -/
theorem dirLba_of_chain {m : Mount} {next : ℕ → ℕ} {c : ℕ} {l : List ℕ}
    (h : Chain next (DataCluster m) EndMark c l) (s : ℕ) :
    dirLba m next c s = (l[s / m.spc]?).map fun x => m.clusterLba x (s % m.spc) := by
  have hc : c ≠ 0 := by
    have := h.ok_head.1
    omega
  rw [dirLba, if_neg hc, dirCluster_eq_getElem? h]

/-- A directory's sectors depend on the table only through its own chain. -/
theorem dirLba_congr {m : Mount} {next next' : ℕ → ℕ} {dirc : ℕ}
    (h : dirc = 0 ∨ ∃ l, Chain next (DataCluster m) EndMark dirc l ∧ ∀ x ∈ l, next' x = next x)
    (s : ℕ) : dirLba m next' dirc s = dirLba m next dirc s := by
  rcases h with rfl | ⟨l, hchain, hsame⟩
  · rfl
  · rw [dirLba_of_chain (hchain.congr hsame), dirLba_of_chain hchain]

theorem slotAt_congr {m : Mount} {next next' : ℕ → ℕ} {dirc : ℕ}
    (h : dirc = 0 ∨ ∃ l, Chain next (DataCluster m) EndMark dirc l ∧ ∀ x ∈ l, next' x = next x)
    (n : ℕ) : slotAt m next' dirc n = slotAt m next dirc n := by
  rw [slotAt, slotAt, dirLba_congr h]

theorem slotAt_eq_some_iff {m : Mount} {next : ℕ → ℕ} {dirc n : ℕ} {loc : Loc} :
    slotAt m next dirc n = some loc ↔
      dirLba m next dirc (n / 16) = some loc.1 ∧ loc.2 = n % 16 := by
  rw [slotAt, Option.map_eq_some_iff]
  constructor
  · rintro ⟨lba, hlba, rfl⟩
    exact ⟨hlba, rfl⟩
  · rintro ⟨hlba, hi⟩
    exact ⟨loc.1, hlba, Prod.ext rfl hi.symm⟩

/-- The records of the root directory lie in front of the data sectors. -/
theorem entryAt_root_of_same_below {m : Mount} (hv : m.Valid) {d d' : Disk}
    (hsame : ∀ lba < m.dataStart, d' lba = d lba) {next : ℕ → ℕ} {n : ℕ} {loc : Loc}
    (hloc : slotAt m next 0 n = some loc) : entryAt d' loc = entryAt d loc := by
  obtain ⟨hlba, -⟩ := slotAt_eq_some_iff.mp hloc
  rw [dirLba, if_pos rfl] at hlba
  split_ifs at hlba with hlt
  have hroot := Option.some.inj hlba
  have hdata := hv.dataStart_eq
  rw [entryAt, entryAt, hsame _ (by omega)]

/-! ## The forest of directories -/

/-- How directory records are read as entries of a forest. -/
def entryKind : EntryKind ℕ RawDirEntry where
  isEnd e := e.isEnd = true
  live e := e.live = true
  child e := if e.isDir then some e.firstCluster.toNat else none
  not_isEnd_of_live e h := by
    intro hend
    simp [RawDirEntry.live, hend] at h

/-- The directories of a volume, by first cluster, and their slots. -/
def forest (m : Mount) (d : Disk) : Forest ℕ Loc RawDirEntry where
  root := 0
  slot := slotAt m (fatAt m d)
  entry := entryAt d

/-- The directory with this first cluster can be reached from the root. -/
abbrev Reach (m : Mount) (d : Disk) (dirc : ℕ) : Prop := (forest m d).Reach entryKind dirc

/-- Slot `n` of a directory holds a live entry, at `loc`. -/
abbrev LiveAt (m : Mount) (d : Disk) (dirc n : ℕ) (loc : Loc) : Prop :=
  (forest m d).LiveAt entryKind dirc n loc

/-- The record at a location is a file or directory of the volume. -/
abbrev Live (m : Mount) (d : Disk) (loc : Loc) : Prop := (forest m d).Live entryKind loc

/-- The clusters of an entry: none for an empty file with first cluster 0, the
chain it heads otherwise. -/
def Owns (m : Mount) (d : Disk) (e : RawDirEntry) (l : List ℕ) : Prop :=
  (e.isDir = false ∧ e.firstCluster.toNat = 0 ∧ l = []) ∨ ChainOf m d e.firstCluster.toNat l

/-- A sound volume: every live entry owns an ended chain, and no two share a
cluster. -/
structure Sound (m : Mount) (d : Disk) : Prop where
  valid : m.Valid
  owns : ∀ loc, Live m d loc → ∃ l, Owns m d (entryAt d loc) l
  disjoint : ∀ loc loc' l l', Live m d loc → Live m d loc' → loc ≠ loc' →
    Owns m d (entryAt d loc) l → Owns m d (entryAt d loc') l' → List.Disjoint l l'

/-- The copies of the table agree in the sectors the driver writes. -/
def Copies (m : Mount) (d : Disk) : Prop :=
  ∀ f < m.bpb.fatCount.toNat, ∀ s < m.fatSecs,
    d (m.fatStart + f * m.bpb.sectorsPerFat.toNat + s) = d (m.fatStart + s)

/-- A well-formed volume: sound, with equal copies of the table, nothing behind the
end of a directory, and no record that is both a volume label and a directory. -/
structure WellFormed (m : Mount) (d : Disk) : Prop extends Sound m d where
  copies : Copies m d
  tail : ∀ dirc k n loc loc', Reach m d dirc → k < n →
    slotAt m (fatAt m d) dirc k = some loc → slotAt m (fatAt m d) dirc n = some loc' →
    (entryAt d loc).isEnd = true → (entryAt d loc').isEnd = true
  noLabelDir : ∀ dirc n loc, Reach m d dirc → slotAt m (fatAt m d) dirc n = some loc →
    ¬ ((entryAt d loc).isLabel = true ∧ (entryAt d loc).isDir = true)

theorem child_eq_some_iff {e : RawDirEntry} {c : ℕ} :
    entryKind.child e = some c ↔ e.isDir = true ∧ e.firstCluster.toNat = c := by
  unfold entryKind
  by_cases h : e.isDir <;> simp [h]

/-- The clusters of an entry are determined. -/
theorem Owns.unique {m : Mount} {d : Disk} {e : RawDirEntry} {l l' : List ℕ}
    (h : Owns m d e l) (h' : Owns m d e l') : l = l' := by
  rcases h with ⟨-, hzero, rfl⟩ | hchain <;> rcases h' with ⟨-, hzero', rfl⟩ | hchain'
  · rfl
  · have := hchain'.ok_head.1
    omega
  · have := hchain.ok_head.1
    omega
  · exact hchain.unique (not_dataCluster_of_endMark m) hchain'

theorem Owns.dataCluster {m : Mount} {d : Disk} {e : RawDirEntry} {l : List ℕ}
    (h : Owns m d e l) {x : ℕ} (hx : x ∈ l) : DataCluster m x := by
  rcases h with ⟨-, -, rfl⟩ | hchain
  · simp at hx
  · exact hchain.ok_of_mem hx

theorem Owns.fatAt_ne_zero {m : Mount} {d : Disk} {e : RawDirEntry} {l : List ℕ}
    (h : Owns m d e l) {x : ℕ} (hx : x ∈ l) : fatAt m d x ≠ 0 := by
  rcases h with ⟨-, -, rfl⟩ | hchain
  · simp at hx
  · exact fatAt_ne_zero_of_mem hchain hx

/-- The clusters of an entry depend on the table only through those clusters. -/
theorem Owns.congr {m : Mount} {d d' : Disk} {e : RawDirEntry} {l : List ℕ}
    (h : Owns m d e l) (same : ∀ x ∈ l, fatAt m d' x = fatAt m d x) : Owns m d' e l := by
  rcases h with hempty | hchain
  · exact Or.inl hempty
  · exact Or.inr (hchain.congr same)

theorem Owns.chain_of_isDir {m : Mount} {d : Disk} {e : RawDirEntry} {l : List ℕ}
    (h : Owns m d e l) (hdir : e.isDir = true) : ChainOf m d e.firstCluster.toNat l := by
  rcases h with ⟨hfile, -, -⟩ | hchain
  · rw [hfile] at hdir
    exact absurd hdir (by decide)
  · exact hchain

namespace Sound

variable {m : Mount} {d : Disk} (hs : Sound m d)
include hs

/-- A directory other than the root is the chain of a live entry. -/
theorem reach_cases {dirc : ℕ} (h : Reach m d dirc) :
    dirc = 0 ∨ ∃ loc l, Live m d loc ∧ (entryAt d loc).isDir = true ∧
      (entryAt d loc).firstCluster.toNat = dirc ∧ ChainOf m d dirc l := by
  rcases h.owner with hroot | ⟨loc, hlive, hchild⟩
  · exact Or.inl hroot
  · obtain ⟨hdir, hfirst⟩ := child_eq_some_iff.mp hchild
    obtain ⟨l, hl⟩ := hs.owns loc hlive
    exact Or.inr ⟨loc, l, hlive, hdir, hfirst, hfirst ▸ hl.chain_of_isDir hdir⟩

theorem dir_chain {dirc : ℕ} (h : Reach m d dirc) : dirc = 0 ∨ ∃ l, ChainOf m d dirc l := by
  rcases hs.reach_cases h with hroot | ⟨-, l, -, -, -, hl⟩
  · exact Or.inl hroot
  · exact Or.inr ⟨l, hl⟩

end Sound

/-- A sector of a directory over a chain is a sector of one of its clusters. -/
theorem mem_of_dirLba {m : Mount} {next : ℕ → ℕ} {dirc s lba : ℕ} {l : List ℕ}
    (hu : m.Usable) (h : Chain next (DataCluster m) EndMark dirc l)
    (hlba : dirLba m next dirc s = some lba) :
    ∃ c k, c ∈ l ∧ k < m.spc ∧ lba = m.clusterLba c k ∧ l[s / m.spc]? = some c ∧
      k = s % m.spc := by
  rw [dirLba_of_chain h, Option.map_eq_some_iff] at hlba
  obtain ⟨c, hc, hlba⟩ := hlba
  exact ⟨c, s % m.spc, List.mem_of_getElem? hc, Nat.mod_lt _ hu.spc_pos, hlba.symm, hc, rfl⟩

/-- Directory sectors lie behind the tables and below the drive's address limit. -/
theorem dirLba_bounds {m : Mount} {next : ℕ → ℕ} {dirc s lba : ℕ} (hu : m.Usable)
    (h : dirc = 0 ∨ ∃ l, Chain next (DataCluster m) EndMark dirc l)
    (hlba : dirLba m next dirc s = some lba) : m.rootStart ≤ lba ∧ lba < 2 ^ 28 := by
  have hroot := hu.rootStart_le
  have hsec := hu.rootSectors_lt
  have hdata := hu.dataStart_eq
  rcases h with rfl | ⟨l, hl⟩
  · rw [dirLba, if_pos rfl] at hlba
    split_ifs at hlba with hlt
    injection hlba with hlba
    omega
  · obtain ⟨c, k, hc, hk, rfl, -, -⟩ := mem_of_dirLba hu hl hlba
    have hok := hl.ok_of_mem hc
    have hlt : c < 65536 := by
      have := hok.lt
      omega
    refine ⟨?_, hu.clusterLba_lt hok.1 hlt hk⟩
    have := hu.dataStart_le_clusterLba hok.1 hlt hk
    omega

namespace Sound

variable {m : Mount} {d : Disk} (hs : Sound m d)
include hs

/-- **A directory sector belongs to one directory, at one place.** -/
theorem dirLba_inj {dirc dirc' s s' lba : ℕ} (h : Reach m d dirc) (h' : Reach m d dirc')
    (hlba : dirLba m (fatAt m d) dirc s = some lba)
    (hlba' : dirLba m (fatAt m d) dirc' s' = some lba) : dirc = dirc' ∧ s = s' := by
  have hv := hs.valid
  have hdata := hv.dataStart_eq
  -- a sector of the root region is below every data cluster
  have hroot {t x c : ℕ} {l : List ℕ} (hl : ChainOf m d x l)
      (ht : dirLba m (fatAt m d) 0 t = some lba) (hx : dirLba m (fatAt m d) x c = some lba) :
      False := by
    obtain ⟨y, k, hy, hk, hyk, -, -⟩ := mem_of_dirLba hv.usable hl hx
    have hok := hl.ok_of_mem hy
    have hlt := hok.lt
    have hge := hv.dataStart_le_clusterLba hok.1 (by omega) hk
    rw [dirLba, if_pos rfl] at ht
    split_ifs at ht with hts
    injection ht with ht
    omega
  rcases hs.reach_cases h with rfl | ⟨loc, l, hlive, hdir, hfirst, hl⟩ <;>
    rcases hs.reach_cases h' with rfl | ⟨loc', l', hlive', hdir', hfirst', hl'⟩
  · refine ⟨rfl, ?_⟩
    rw [dirLba, if_pos rfl] at hlba hlba'
    split_ifs at hlba hlba'
    injection hlba with hlba
    injection hlba' with hlba'
    omega
  · exact (hroot hl' hlba hlba').elim
  · exact (hroot hl hlba' hlba).elim
  · obtain ⟨c, k, hc, hk, hlbaeq, hidx, hkeq⟩ := mem_of_dirLba hv.usable hl hlba
    obtain ⟨c', k', hc', hk', hlbaeq', hidx', hkeq'⟩ := mem_of_dirLba hv.usable hl' hlba'
    have hok := hl.ok_of_mem hc
    have hok' := hl'.ok_of_mem hc'
    have hlt := hok.lt
    have hlt' := hok'.lt
    obtain ⟨hcc, hkk⟩ := hv.clusterLba_inj hok.1 (by omega) hk hok'.1 (by omega) hk'
      (hlbaeq.symm.trans hlbaeq')
    have hsame : loc = loc' := by
      by_contra hne
      have hdis := hs.disjoint loc loc' l l' hlive hlive' hne
        (Or.inr (hfirst.symm ▸ hl)) (Or.inr (hfirst'.symm ▸ hl'))
      exact hdis hc (hcc ▸ hc')
    have hdirc : dirc = dirc' := by rw [← hfirst, ← hfirst', hsame]
    subst hdirc
    have hll := hl.unique (not_dataCluster_of_endMark m) hl'
    subst hll hcc
    have hdiv : s / m.spc = s' / m.spc := by
      have hnodup := hl.nodup (not_dataCluster_of_endMark m)
      obtain ⟨hi, hgi⟩ := List.getElem?_eq_some_iff.mp hidx
      obtain ⟨hj, hgj⟩ := List.getElem?_eq_some_iff.mp hidx'
      exact (hnodup.getElem_inj_iff).mp (hgi.trans hgj.symm)
    refine ⟨rfl, ?_⟩
    rw [← Nat.div_add_mod s m.spc, ← Nat.div_add_mod s' m.spc, hdiv, ← hkeq, ← hkeq', hkk]

/-- A location belongs to one slot of one directory. -/
theorem slotAt_inj {dirc dirc' n n' : ℕ} {loc : Loc} (h : Reach m d dirc)
    (h' : Reach m d dirc') (hloc : slotAt m (fatAt m d) dirc n = some loc)
    (hloc' : slotAt m (fatAt m d) dirc' n' = some loc) : dirc = dirc' ∧ n = n' := by
  obtain ⟨hlba, hi⟩ := slotAt_eq_some_iff.mp hloc
  obtain ⟨hlba', hi'⟩ := slotAt_eq_some_iff.mp hloc'
  obtain ⟨hdirc, hsec⟩ := hs.dirLba_inj h h' hlba hlba'
  exact ⟨hdirc, by omega⟩

/-- No directory is the entry it lies below: following the owners of a directory
leads to the root. -/
theorem child_ne {dirc : ℕ} (h : Reach m d dirc) {n : ℕ} {loc : Loc}
    (hlive : LiveAt m d dirc n loc) (hdir : (entryAt d loc).isDir = true) :
    (entryAt d loc).firstCluster.toNat ≠ dirc := by
  have hchain {loc : Loc} (hlive : Live m d loc) (hdir : (entryAt d loc).isDir = true) :
      ∃ l, ChainOf m d (entryAt d loc).firstCluster.toNat l := by
    obtain ⟨l, hl⟩ := hs.owns loc hlive
    exact ⟨l, hl.chain_of_isDir hdir⟩
  induction h generalizing n loc with
  | root =>
      intro heq
      obtain ⟨l, hl⟩ := hchain ⟨0, n, .root, hlive⟩ hdir
      rw [show (entryAt d loc).firstCluster.toNat = 0 from heq] at hl
      have := hl.ok_head.1
      omega
  | @child node below n' loc' hreach hlive' hchild' ih =>
      intro heq
      obtain ⟨hdir', hfirst'⟩ := child_eq_some_iff.mp hchild'
      have hbelow : Reach m d below := .child hreach hlive' hchild'
      by_cases hloc : loc = loc'
      · subst hloc
        obtain ⟨rfl, -⟩ := hs.slotAt_inj hreach hbelow hlive'.1 hlive.1
        exact ih hlive' hdir' hfirst'
      · obtain ⟨l, hl⟩ := hchain (hlive.live hbelow) hdir
        obtain ⟨l', hl'⟩ := hchain (hlive'.live hreach) hdir'
        have hdis := hs.disjoint loc loc' l l' (hlive.live hbelow) (hlive'.live hreach) hloc
          (Or.inr hl) (Or.inr hl')
        refine hdis hl.head_mem ?_
        rw [heq, ← show (entryAt d loc').firstCluster.toNat = below from hfirst']
        exact hl'.head_mem

/-- A directory's chain shares no cluster with an entry that does not head it. -/
theorem dir_disjoint {dirc : ℕ} {ld l : List ℕ} {loc : Loc} (h : Reach m d dirc)
    (hld : ChainOf m d dirc ld) (hlive : Live m d loc) (hl : Owns m d (entryAt d loc) l)
    (hne : (entryAt d loc).isDir = true → (entryAt d loc).firstCluster.toNat ≠ dirc) :
    List.Disjoint ld l := by
  rcases hs.reach_cases h with rfl | ⟨loc', l', hlive', hdir', hfirst', hl'⟩
  · have := hld.ok_head.1
    omega
  · refine hs.disjoint loc' loc ld l hlive' hlive (fun heq => ?_) (Or.inr (hfirst'.symm ▸ hld)) hl
    exact hne (heq ▸ hdir') (heq ▸ hfirst')

/-- A directory's chain shares no cluster with the entries it holds. -/
theorem dir_disjoint_entry {dirc n : ℕ} {ld l : List ℕ} {loc : Loc} (h : Reach m d dirc)
    (hld : ChainOf m d dirc ld) (hlive : LiveAt m d dirc n loc) (hl : Owns m d (entryAt d loc) l) :
    List.Disjoint ld l :=
  hs.dir_disjoint h hld (hlive.live h) hl fun hdir => hs.child_ne h hlive hdir

end Sound

end MasterOS.Fat
