/-
# Volumes with 16-bit entries

The makefile formats its disk with 16-bit table entries, and the driver reads 12-bit ones. A
file of such a volume is read right where the two agree: the entries are only looked at from
one cluster to the next, so a read that stays in the first cluster never notices, and a longer
one follows the chain of the file just as long as the packed entries happen to lead along it.
-/

import MasterOS.Fat.Contents

namespace MasterOS.Fat

open MasterOS.Device MasterOS.Device.Prog MasterOS.Math

/-! ## The volume -/

/-- The entry of a cluster in a table of 16-bit words, low byte first. -/
def fat16At (m : Mount) (d : Disk) (c : ℕ) : ℕ :=
  (fatImage m d (2 * c)).toNat + 256 * (fatImage m d (2 * c + 1)).toNat

/-- A data cluster of a volume with 16-bit entries: its entry lies in the table. -/
def Cluster16 (m : Mount) (c : ℕ) : Prop :=
  2 ≤ c ∧ c < 0xFFF0 ∧ 2 * c + 1 < 512 * m.bpb.sectorsPerFat.toNat

instance (m : Mount) : DecidablePred (Cluster16 m) := fun c => by
  unfold Cluster16
  infer_instance

/-- The marks that end a chain of 16-bit entries. -/
def EndMark16 (x : ℕ) : Prop := 0xFFF8 ≤ x

/-- The chain of a record under the 16-bit entries; a record without data has none. -/
def Linked16 (m : Mount) (d : Disk) (e : RawDirEntry) (l : List ℕ) : Prop :=
  (e.firstCluster.toNat = 0 ∧ l = []) ∨
    Chain (fat16At m d) (Cluster16 m) EndMark16 e.firstCluster.toNat l

/-- The bytes that a read of a record has to deliver. -/
def dueBytes (e : RawDirEntry) (bufSize : ℕ) : ℕ := min e.fileSize.toNat bufSize

/-- `fat_read` returns the smaller of the two sizes and fills the buffer with that many bytes
of the clusters of a chain. -/
def ReadsAlong (fuel : ℕ) (st : Driver) (d : Disk) (name : CString) (buf : ℕ → UInt8)
    (bufSize due : ℕ) (l : List ℕ) : Prop :=
  ∃ out st', (fatRead fuel st name buf bufSize).Returns d (((due : ℤ), out), st') [] ∧
    ∀ i < due, chainByte st.mount d l i = some (out i)

/-- The clusters that the read needs are numbers that the driver follows, and its entry of each
leads to the next one that it needs. -/
def LinkedAlike (m : Mount) (next : ℕ → ℕ) (l : List ℕ) (due : ℕ) : Prop :=
  ∀ k c, l[k]? = some c → 512 * m.spc * k < due →
    c ≤ 0xFEF ∧ (512 * m.spc * (k + 1) < due → l[k + 1]? = some (next c))

/-- The bytes along the walk that the driver makes are those of the chain, and their number is
no negative `int`. -/
def SameBytes (m : Mount) (d : Disk) (next : ℕ → ℕ) (c : ℕ) (l : List ℕ) (due : ℕ) : Prop :=
  due < 2 ^ 31 ∧ ∀ i < due, walkByte m d next c i = chainByte m d l i

theorem not_cluster16_of_endMark16 (m : Mount) : ∀ x, EndMark16 x → ¬ Cluster16 m x := by
  intro x hend hcluster
  have := hcluster.2.1
  unfold EndMark16 at hend
  omega

/-! ## What a read delivers -/

/-- No result is more than an `int` holds. -/
theorem int32_lt (n : ℕ) : int32 n < 2 ^ 31 := by
  unfold int32
  split_ifs <;> omega

theorem readEntry_lt {m : Mount} {fatBuf : FatBuf} {fuel : ℕ} {e : RawDirEntry}
    {buf out : ℕ → UInt8} {bufSize : ℕ} {d : Disk} {r : ℤ} {writes : List (ℕ × Sector)}
    (h : (readEntry m fatBuf fuel e buf bufSize).Returns d (r, out) writes) : r < 2 ^ 31 := by
  unfold readEntry at h
  split_ifs at h with hempty
  · injection h with hresult
    injection hresult with hresult
    injection hresult with hr
    rw [← hr]
    decide
  · obtain ⟨⟨bytesRead, buf'⟩, first, second, -, hrest, -⟩ := returns_bind_iff.mp h
    cases bytesRead with
    | none =>
        injection hrest with hresult
        injection hresult with hresult
        injection hresult with hr
        rw [← hr]
        decide
    | some n =>
        injection hrest with hresult
        injection hresult with hresult
        injection hresult with hr
        rw [← hr]
        exact int32_lt n

/-- On any table the record's bytes are delivered along the walk. -/
theorem readEntry_delivers {m : Mount} (hu : m.Usable) (d : Disk) (fatBuf : FatBuf)
    (e : RawDirEntry) {bufSize : ℕ} (hbuf : bufSize < 2 ^ 32) (hdue : dueBytes e bufSize < 2 ^ 31)
    {fuel : ℕ} (hfuel : loopBound < fuel) (buf : ℕ → UInt8) :
    ∃ r out, (readEntry m fatBuf fuel e buf bufSize).Returns d (r, out) [] ∧
      Delivers m d (fatNextCluster fatBuf) e bufSize buf r out := by
  unfold readEntry Delivers
  by_cases hempty : e.firstCluster.toNat < 2 ∨ e.fileSize.toNat = 0
  · exact ⟨0, buf, by rw [if_pos hempty]; rfl, by rw [if_pos hempty]; exact ⟨rfl, rfl⟩⟩
  · obtain ⟨n, out, hchain, hle, hn, hbytes, hrest⟩ :=
      readChain_start hu d fatBuf e.fileSize.toNat_lt hbuf hdue hfuel e.firstCluster.toNat buf
    have hint : int32 n = n := int32_of_lt (lt_of_le_of_lt hle hdue)
    refine ⟨n, out, ?_, ?_⟩
    · rw [if_neg hempty]
      refine hchain.bind_nil ?_
      dsimp only
      rw [hint]
      rfl
    · rw [if_neg hempty]
      exact ⟨n, rfl, hn, hbytes, hrest⟩

/-- A chain has a byte at every place in front of its end. -/
theorem chainByte_ne_none {m : Mount} {d : Disk} {l : List ℕ} {i : ℕ}
    (h : i < 512 * m.spc * l.length) : chainByte m d l i ≠ none := by
  have hlt : i / (512 * m.spc) < l.length := Nat.div_lt_of_lt_mul h
  rw [chainByte, List.getElem?_eq_getElem hlt]
  exact Option.some_ne_none _

section Read

variable {st : Driver} (hu : st.mount.Usable) (hroot : st.currentDirCluster = 0) {d : Disk}
  {name : CString} {loc : Loc} (hnamed : Named st.mount d 0 (fileVerdict name) loc) {l : List ℕ}
  (hlinked : (entryAt d loc).firstCluster.toNat < 2 → l = [])
  (hlong : (entryAt d loc).fileSize.toNat ≤ 512 * st.mount.spc * l.length) {bufSize : ℕ}
  (hbuf : bufSize < 2 ^ 32) {fuel : ℕ} (hfuel : loopBound < fuel) (buf : ℕ → UInt8)
include hu hroot hnamed hlinked hlong hbuf hfuel

/-- **A read is right when the bytes along its walk are those of the chain.** -/
theorem readsAlong_iff_sameBytes :
    ReadsAlong fuel st d name buf bufSize (dueBytes (entryAt d loc) bufSize) l ↔
      SameBytes st.mount d (fatNextCluster (loaded st.mount d (st.fatBuf .read)))
        (entryAt d loc).firstCluster.toNat l (dueBytes (entryAt d loc) bufSize) := by
  obtain ⟨n, htake⟩ := hnamed
  have hexec := fatRead_found hu (Or.inl hroot) hfuel buf bufSize (hroot ▸ htake)
  set next := fatNextCluster (loaded st.mount d (st.fatBuf .read)) with hnext
  set due := dueBytes (entryAt d loc) bufSize with hduedef
  have hsize : due ≤ (entryAt d loc).fileSize.toNat := Nat.min_le_left _ _
  constructor
  · rintro ⟨out, st', hreturns, hbytes⟩
    rw [Returns, hexec] at hreturns
    obtain ⟨⟨r, out'⟩, first, second, hentry, hlast, -⟩ := returns_bind_iff.mp hreturns
    injection hlast with hresult
    injection hresult with hresult
    injection hresult with hr
    injection hr with hr hout
    subst hr hout
    have hdue : due < 2 ^ 31 := by exact_mod_cast readEntry_lt hentry
    refine ⟨hdue, fun i hi => ?_⟩
    obtain ⟨r, out, hdelivered, hdelivers⟩ :=
      readEntry_delivers hu d (loaded st.mount d (st.fatBuf .read)) (entryAt d loc) hbuf hdue
        hfuel buf
    obtain ⟨heq, -⟩ := hdelivered.unique hentry
    injection heq with hr hout
    subst hr hout
    unfold Delivers at hdelivers
    split_ifs at hdelivers
    · have := hdelivers.1
      omega
    · obtain ⟨n, hn, -, hwalk, -⟩ := hdelivers
      rw [hwalk i (by omega), hbytes i hi]
  · rintro ⟨hdue, hsame⟩
    obtain ⟨r, out, hdelivered, hdelivers⟩ :=
      readEntry_delivers hu d (loaded st.mount d (st.fatBuf .read)) (entryAt d loc) hbuf hdue
        hfuel buf
    have hreturns : (fatRead fuel st name buf bufSize).Returns d
        ((r, out), st.keepBuf .read (loaded st.mount d (st.fatBuf .read))) [] := by
      rw [Returns, hexec]
      exact hdelivered.bind_nil rfl
    suffices hr : r = (due : ℤ) ∧ ∀ i < due, chainByte st.mount d l i = some (out i) by
      obtain ⟨rfl, hbytes⟩ := hr
      exact ⟨out, _, hreturns, hbytes⟩
    unfold Delivers at hdelivers
    split_ifs at hdelivers with hempty
    · have hzero : due = 0 := by
        rcases hempty with hfirst | hzero
        · rw [hlinked hfirst, List.length_nil] at hlong
          omega
        · omega
      exact ⟨by rw [hdelivers.1, hzero]; rfl, fun i hi => absurd hi (by omega)⟩
    · obtain ⟨n, hr, hn, hwalk, -⟩ := hdelivers
      have hspc := hu.spc_pos
      have hlong' (k : ℕ) (hk : 512 * st.mount.spc * k < due) :
          walkAt next (entryAt d loc).firstCluster.toNat k ≠ none := by
        intro hnone
        have hbyte := hsame _ hk
        rw [walkByte, Nat.mul_div_cancel_left k (by omega), hnone] at hbyte
        exact chainByte_ne_none (lt_of_lt_of_le hk (hsize.trans hlong)) hbyte.symm
      have hmin : (n : ℕ∞) = due :=
        hn.trans (min_walkLength_of_long (by omega) hlong').symm
      obtain rfl : n = due := by exact_mod_cast hmin
      exact ⟨hr, fun i hi => by rw [← hsame i hi, hwalk i hi]⟩

end Read

/-! ## Walks and chains -/

/-- The walk goes on with the entry of the cluster it has come to. -/
theorem walkAt_add_one {next : ℕ → ℕ} {c k x : ℕ} (h : walkAt next c k = some x) :
    walkAt next c (k + 1) = if Walked (next x) then some (next x) else none := by
  induction k generalizing c with
  | zero =>
      rw [walkAt] at h
      split_ifs at h with hc
      obtain rfl := Option.some.inj h
      rw [walkAt_succ hc]
      rfl
  | succ k ih =>
      rw [walkAt] at h
      split_ifs at h with hc
      rw [walkAt_succ hc]
      exact ih h

section Links

variable {m : Mount} {next : ℕ → ℕ} {c : ℕ} {l : List ℕ} {due : ℕ}

/-- The first byte of each cluster, along the walk and along the chain. -/
theorem walkByte_start (hspc : 1 ≤ m.spc) (d : Disk) (k : ℕ) :
    walkByte m d next c (512 * m.spc * k) =
      (walkAt next c k).map fun x => (d (m.clusterLba x 0)).byte 0 := by
  have hsector : 512 * m.spc * k / 512 % m.spc = 0 := by
    rw [Nat.mul_assoc, Nat.mul_div_cancel_left _ (by decide), Nat.mul_mod_right]
  have hbyte : 512 * m.spc * k % 512 = 0 := by
    rw [Nat.mul_assoc, Nat.mul_mod_right]
  rw [walkByte, Nat.mul_div_cancel_left k (by omega), hsector, hbyte]

theorem chainByte_start (hspc : 1 ≤ m.spc) (d : Disk) (k : ℕ) :
    chainByte m d l (512 * m.spc * k) =
      (l[k]?).map fun x => (d (m.clusterLba x 0)).byte 0 := by
  have hsector : 512 * m.spc * k / 512 % m.spc = 0 := by
    rw [Nat.mul_assoc, Nat.mul_div_cancel_left _ (by decide), Nat.mul_mod_right]
  have hbyte : 512 * m.spc * k % 512 = 0 := by
    rw [Nat.mul_assoc, Nat.mul_mod_right]
  rw [chainByte, Nat.mul_div_cancel_left k (by omega), hsector, hbyte]

/-- Where the walk is the chain, so are its bytes. -/
theorem walkByte_eq_chainByte (h : ∀ k, 512 * m.spc * k < due → walkAt next c k = l[k]?)
    (d : Disk) {i : ℕ} (hi : i < due) : walkByte m d next c i = chainByte m d l i := by
  rw [walkByte, chainByte, h _ (lt_of_le_of_lt (Nat.mul_div_le i _) hi)]

variable (hlong : due ≤ 512 * m.spc * l.length)
include hlong

theorem getElem_of_needed {k : ℕ} (hk : 512 * m.spc * k < due) : ∃ x, l[k]? = some x := by
  have hlt : k < l.length := lt_of_mul_lt_mul_left (lt_of_lt_of_le hk hlong) (Nat.zero_le _)
  exact ⟨l[k], List.getElem?_eq_getElem hlt⟩

/-- The walk makes the chain, as far as it is needed, when each step does. -/
theorem walkAt_eq_iff_linkedAlike (hdata : ∀ x ∈ l, 2 ≤ x) (hfirst : ∀ x, l[0]? = some x → x = c) :
    (∀ k, 512 * m.spc * k < due → walkAt next c k = l[k]?) ↔ LinkedAlike m next l due := by
  constructor
  · intro h k x hx hk
    have hwalk : walkAt next c k = some x := (h k hk).trans hx
    refine ⟨(walkAt_walked hwalk).2, fun hnext => ?_⟩
    obtain ⟨y, hy⟩ := getElem_of_needed hlong hnext
    have hstep := h (k + 1) hnext
    rw [walkAt_add_one hwalk, hy] at hstep
    split_ifs at hstep with hwalked
    rw [hy, hstep]
  · intro h k
    induction k with
    | zero =>
        intro hk
        obtain ⟨x, hx⟩ := getElem_of_needed hlong hk
        obtain rfl := hfirst x hx
        have hwalked : Walked x := ⟨hdata x (List.mem_of_getElem? hx), (h 0 x hx hk).1⟩
        rw [hx, walkAt, if_pos hwalked]
    | succ k ih =>
        intro hk
        have hbefore : 512 * m.spc * k < due :=
          lt_of_le_of_lt (Nat.mul_le_mul_left _ (Nat.le_succ k)) hk
        obtain ⟨x, hx⟩ := getElem_of_needed hlong hbefore
        have hnext := (h k x hx hbefore).2 hk
        have hwalked : Walked (next x) :=
          ⟨hdata _ (List.mem_of_getElem? hnext), (h (k + 1) _ hnext hk).1⟩
        rw [walkAt_add_one ((ih hbefore).trans hx), if_pos hwalked, hnext]

/-- Clusters that the driver follows hold less than an `int` counts. -/
theorem LinkedAlike.due_lt (h : LinkedAlike m next l due) (hnodup : l.Nodup) : due < 2 ^ 31 := by
  have hspc := m.spc_lt
  by_contra hge
  have hneeded (k : ℕ) (hk : k < 4081) : 512 * m.spc * k < due := by
    have hle : 512 * m.spc * k ≤ 512 * 255 * 4080 := Nat.mul_le_mul (by omega) (by omega)
    omega
  have hlow : ∀ x ∈ l.take 4081, x ∈ List.range 4080 := by
    intro x hx
    obtain ⟨k, hk⟩ := List.mem_iff_getElem?.mp hx
    rw [List.getElem?_take] at hk
    split_ifs at hk with hlt
    have := (h k x hk (hneeded k hlt)).1
    exact List.mem_range.mpr (by omega)
  obtain ⟨x, hx⟩ := getElem_of_needed hlong (hneeded 4080 (by decide))
  have hlength : (l.take 4081).length = 4081 := by
    rw [List.length_take]
    have := (List.getElem?_eq_some_iff.mp hx).1
    omega
  have hle := (hnodup.sublist (List.take_sublist _ _)).length_le_of_subset hlow
  rw [hlength, List.length_range] at hle
  omega

end Links

/-! ## Volumes that differ in their data sectors -/

section SameBelow

variable {m : Mount} (hv : m.Valid) {d d' : Disk} (hsame : ∀ lba < m.dataStart, d' lba = d lba)
include hv hsame

theorem loaded_of_same_below (fatBuf : FatBuf) : loaded m d' fatBuf = loaded m d fatBuf := by
  funext o
  unfold loaded
  split_ifs with ho
  · have hspf := m.fatSecs_le_sectorsPerFat
    have hfat := hv.fatCopy_lt hv.fatCount_pos (show o / 512 < _ by omega)
    have hdata := hv.dataStart_eq
    rw [fatImage, fatImage, hsame _ (by omega)]
  · rfl

theorem named_root_of_same_below {verdict : RawDirEntry → Verdict} {loc : Loc}
    (h : Named m d 0 verdict loc) : Named m d' 0 verdict loc ∧ entryAt d' loc = entryAt d loc := by
  obtain ⟨n, hloc, htake, hbefore⟩ := h
  have hslot (k : ℕ) : slotAt m (fatAt m d') 0 k = slotAt m (fatAt m d) 0 k :=
    slotAt_congr (Or.inl rfl) k
  have hentry := entryAt_root_of_same_below hv hsame hloc
  refine ⟨⟨n, (hslot n).trans hloc, hentry ▸ htake, fun k hk loc' hloc' => ?_⟩, hentry⟩
  rw [hslot] at hloc'
  rw [entryAt_root_of_same_below hv hsame hloc']
  exact hbefore k hk loc' hloc'

end SameBelow

/-- A walk whose bytes are those of the chain whatever the data sectors hold is the chain. -/
theorem walkAt_of_forall_sameBytes {m : Mount} (hv : m.Valid) {d : Disk} {next : ℕ → ℕ} {c : ℕ}
    {l : List ℕ} {due : ℕ} (hlong : due ≤ 512 * m.spc * l.length)
    (hdata : ∀ x ∈ l, 2 ≤ x ∧ x < 65536)
    (h : ∀ d', (∀ lba < m.dataStart, d' lba = d lba) → SameBytes m d' next c l due) {k : ℕ}
    (hk : 512 * m.spc * k < due) : walkAt next c k = l[k]? := by
  have hu := hv.usable
  have hspc := hv.spc_pos
  obtain ⟨y, hy⟩ := getElem_of_needed hlong hk
  obtain ⟨h2, hlt⟩ := hdata y (List.mem_of_getElem? hy)
  have hbytes (d' : Disk) (hsame : ∀ lba < m.dataStart, d' lba = d lba) :
      ((walkAt next c k).map fun x => (d' (m.clusterLba x 0)).byte 0) =
        some ((d' (m.clusterLba y 0)).byte 0) := by
    have hbyte := (h d' hsame).2 _ hk
    rwa [walkByte_start hspc, chainByte_start hspc, hy, Option.map_some] at hbyte
  cases hx : walkAt next c k with
  | none =>
      have hbyte := hbytes d fun _ _ => rfl
      rw [hx] at hbyte
      exact absurd hbyte (by simp)
  | some x =>
      rw [hy]
      by_contra hne
      have hxy : x ≠ y := fun heq => hne (congrArg some heq)
      have hwalked := walkAt_walked hx
      have hother : m.clusterLba x 0 ≠ m.clusterLba y 0 := fun heq =>
        hxy (hu.clusterLba_inj hwalked.1 (by have := hwalked.2; omega) hspc h2 hlt hspc heq).1
      -- the first byte of the cluster of the chain is changed to another than the walk meets
      have hbyte := hbytes (Function.update d (m.clusterLba y 0)
        (.ofBytes fun _ => (d (m.clusterLba x 0)).byte 0 + 1)) fun lba hlba => by
          have hlow := hu.dataStart_le_clusterLba h2 hlt hspc
          exact Function.update_of_ne (by omega) _ _
      rw [hx, Option.map_some, Function.update_of_ne hother, Function.update_self,
        Sector.byte_ofBytes _ (by decide)] at hbyte
      have heq := Option.some.inj hbyte
      simp at heq

/-! ## Reading a volume with 16-bit entries -/

/-- The chain of a record, with what the comparison of it with a walk needs. -/
theorem Linked16.facts {m : Mount} {d : Disk} {e : RawDirEntry} {l : List ℕ}
    (h : Linked16 m d e l) :
    (e.firstCluster.toNat < 2 → l = []) ∧ (∀ x, l[0]? = some x → x = e.firstCluster.toNat) ∧
      (∀ x ∈ l, 2 ≤ x ∧ x < 65536) ∧ l.Nodup := by
  rcases h with ⟨-, rfl⟩ | hchain
  · exact ⟨fun _ => rfl, fun x hx => absurd hx (by simp), fun x hx => absurd hx (by simp),
      List.nodup_nil⟩
  · refine ⟨fun hlt => ?_, fun x hx => ?_, fun x hx => ?_,
      hchain.nodup (not_cluster16_of_endMark16 m)⟩
    · have := hchain.ok_head.1
      omega
    · obtain ⟨rest, rfl⟩ := hchain.eq_cons
      exact (Option.some.inj hx).symm
    · obtain ⟨h2, hlt, -⟩ := hchain.ok_of_mem hx
      exact ⟨h2, by omega⟩

/-- **When a file of a volume with 16-bit entries is read right.** On one disk: when the bytes
along the walk through the packed entries are those of the chain. Whatever the data sectors
hold: when the packed entries lead along the clusters that the read needs. -/
theorem readsAlong_iff {st : Driver} {d : Disk} (hv : st.mount.Valid)
    (hroot : st.currentDirCluster = 0) {name : CString} {loc : Loc}
    (hnamed : Named st.mount d 0 (fileVerdict name) loc) {l : List ℕ}
    (hlinked : Linked16 st.mount d (entryAt d loc) l)
    (hlong : (entryAt d loc).fileSize.toNat ≤ 512 * st.mount.spc * l.length) {bufSize : ℕ}
    (hbuf : bufSize < 2 ^ 32) {fuel : ℕ} (hfuel : loopBound < fuel) (buf : ℕ → UInt8) :
    let next := fatNextCluster (loaded st.mount d (st.fatBuf .read))
    let due := dueBytes (entryAt d loc) bufSize
    (ReadsAlong fuel st d name buf bufSize due l ↔
      SameBytes st.mount d next (entryAt d loc).firstCluster.toNat l due) ∧
    ((∀ d', (∀ lba < st.mount.dataStart, d' lba = d lba) →
        ReadsAlong fuel st d' name buf bufSize due l) ↔
      LinkedAlike st.mount next l due) := by
  intro next due
  have hu := hv.usable
  obtain ⟨hempty, hfirst, hdata, hnodup⟩ := hlinked.facts
  have hdue : due ≤ 512 * st.mount.spc * l.length := (Nat.min_le_left _ _).trans hlong
  have hiff (d' : Disk) (hsame : ∀ lba < st.mount.dataStart, d' lba = d lba) :
      ReadsAlong fuel st d' name buf bufSize due l ↔
        SameBytes st.mount d' next (entryAt d loc).firstCluster.toNat l due := by
    obtain ⟨hnamed', hentry⟩ := named_root_of_same_below hv hsame hnamed
    have h := readsAlong_iff_sameBytes hu hroot hnamed' (l := l) (hentry ▸ hempty)
      (hentry ▸ hlong) hbuf hfuel buf
    rwa [hentry, loaded_of_same_below hv hsame] at h
  refine ⟨hiff d fun _ _ => rfl, ?_⟩
  rw [← walkAt_eq_iff_linkedAlike hdue (fun x hx => (hdata x hx).1) hfirst]
  constructor
  · intro h k hk
    exact walkAt_of_forall_sameBytes hv hdue hdata
      (fun d' hsame => (hiff d' hsame).mp (h d' hsame)) hk
  · intro h d' hsame
    have halike := (walkAt_eq_iff_linkedAlike hdue (fun x hx => (hdata x hx).1) hfirst).mp h
    exact (hiff d' hsame).mpr ⟨halike.due_lt hdue hnodup, fun i hi => walkByte_eq_chainByte h d' hi⟩

/-! ## A file of two clusters -/

/-- The layout of a volume of 32 MB with 16-bit entries. -/
def mount16 : Mount := mountOf
  { bytesPerSector := 512, sectorsPerCluster := 4, reservedSectors := 4, fatCount := 2,
    rootEntryCount := 512, totalSectors16 := 0, sectorsPerFat := 64, totalSectors32 := 65536 }

theorem valid_mount16 : mount16.Valid where
  mounted := rfl
  bytesPerSector := rfl
  spc_pos := by decide
  fatCount_pos := by decide
  reserved_pos := by decide

/-- The start of a table of 16-bit entries: the two reserved ones, then a chain of the clusters
2 and 3. -/
def fatSector16 : Sector := .ofBytes fun k =>
  [0xF8, 0xFF, 0xFF, 0xFF, 0x03, 0x00, 0xFF, 0xFF].getD k 0

/-- The file `A` of 2049 bytes, the last of them a 7 at the start of its second cluster. -/
def disk16 : Disk := applyWrites
  [(4, fatSector16), (68, fatSector16), slotWrite blank (132, 0) (newEntry nameA 0x00 2 2049),
    (168, .ofBytes fun _ => 7)] blank

theorem named_disk16 : Named mount16 disk16 0 (fileVerdict nameA) (132, 0) :=
  ⟨0, rfl, rfl, fun k hk => absurd hk (Nat.not_lt_zero k)⟩

theorem entryAt_disk16 : (entryAt disk16 (132, 0)).firstCluster.toNat = 2 ∧
    (entryAt disk16 (132, 0)).fileSize.toNat = 2049 := ⟨rfl, rfl⟩

/-- A chain of two clusters. -/
theorem linked16_pair {m : Mount} {d : Disk} {e : RawDirEntry} {a b : ℕ} (ha : Cluster16 m a)
    (hb : Cluster16 m b) (hfirst : e.firstCluster.toNat = a) (hlink : fat16At m d a = b)
    (hend : fat16At m d b = 0xFFFF) : Linked16 m d e [a, b] := by
  refine Or.inr ?_
  rw [hfirst]
  refine .link ha ?_
  rw [hlink]
  refine .last hb ?_
  rw [hend]
  exact show 0xFFF8 ≤ 0xFFFF by decide

theorem linked16_disk16 : Linked16 mount16 disk16 (entryAt disk16 (132, 0)) [2, 3] :=
  linked16_pair (by decide) (by decide) entryAt_disk16.1 rfl rfl

/-- The same file with 514 for its second cluster: read as a 16-bit entry or as a packed one, that
of cluster 2 leads there. -/
def alikeDisk : Disk := applyWrites
  [(4, .ofBytes fun k => [0xF8, 0xFF, 0xFF, 0x02, 0x02, 0x02].getD k 0),
    (6, .ofBytes fun k => [0, 0, 0, 0, 0xFF, 0xFF].getD k 0),
    slotWrite blank (132, 0) (newEntry nameA 0x00 2 2049), (2212, .ofBytes fun _ => 7)] blank

theorem entryAt_alikeDisk : (entryAt alikeDisk (132, 0)).firstCluster.toNat = 2 ∧
    (entryAt alikeDisk (132, 0)).fileSize.toNat = 2049 := ⟨rfl, rfl⟩

theorem linked16_alikeDisk :
    Linked16 mount16 alikeDisk (entryAt alikeDisk (132, 0)) [2, 514] :=
  linked16_pair (by decide) (by decide) entryAt_alikeDisk.1 rfl rfl

/-- Both clusters of that file are read right. -/
theorem readsAlong_iff_alikeDisk :
    ReadsAlong (loopBound + 1) (freshDriver mount16) alikeDisk nameA (fun _ => 0) 4096 2049
      [2, 514] := by
  have hlong : (entryAt alikeDisk (132, 0)).fileSize.toNat ≤
      512 * mount16.spc * [2, 514].length := by
    rw [entryAt_alikeDisk.2]
    decide
  have hnamed : Named mount16 alikeDisk 0 (fileVerdict nameA) (132, 0) :=
    ⟨0, rfl, rfl, fun k hk => absurd hk (Nat.not_lt_zero k)⟩
  have hiff := @readsAlong_iff (freshDriver mount16) alikeDisk valid_mount16 rfl nameA (132, 0)
    hnamed [2, 514] linked16_alikeDisk hlong 4096 (by decide) (loopBound + 1)
    (Nat.lt_succ_self _) fun _ => 0
  have hdue : dueBytes (entryAt alikeDisk (132, 0)) 4096 = 2049 := by
    rw [dueBytes, entryAt_alikeDisk.2]
    decide
  have hpacked : fatNextCluster (loaded mount16 alikeDisk fun _ => 0) 2 = 514 := by
    rw [fatNextCluster_loaded (by decide)]
    rfl
  rw [hdue] at hiff
  refine hiff.2.mpr (fun k c hc hk => ?_) alikeDisk fun _ _ => rfl
  have hspc : (freshDriver mount16).mount.spc = 4 := rfl
  rw [hspc] at hk ⊢
  have hlt : k < 2 := by omega
  interval_cases k
  · obtain rfl : 2 = c := Option.some.inj hc
    exact ⟨by decide, fun _ => congrArg some hpacked.symm⟩
  · obtain rfl : 514 = c := Option.some.inj hc
    exact ⟨by decide, fun hnext => absurd hnext (by decide)⟩

/-- **The second cluster is not.** The packed entry of cluster 2 leads to cluster 0x3FF. -/
theorem not_readsAlong_disk16 :
    mount16.Valid ∧ Named mount16 disk16 0 (fileVerdict nameA) (132, 0) ∧
    Linked16 mount16 disk16 (entryAt disk16 (132, 0)) [2, 3] ∧
    (entryAt disk16 (132, 0)).fileSize.toNat ≤ 512 * mount16.spc * [2, 3].length ∧
    dueBytes (entryAt disk16 (132, 0)) 4096 = 2049 ∧
    ∀ fuel, loopBound < fuel → ∀ buf,
      ¬ ReadsAlong fuel (freshDriver mount16) disk16 nameA buf 4096 2049 [2, 3] := by
  have hlong : (entryAt disk16 (132, 0)).fileSize.toNat ≤ 512 * mount16.spc * [2, 3].length := by
    rw [entryAt_disk16.2]
    decide
  have hdue : dueBytes (entryAt disk16 (132, 0)) 4096 = 2049 := by
    rw [dueBytes, entryAt_disk16.2]
    decide
  refine ⟨valid_mount16, named_disk16, linked16_disk16, hlong, hdue, fun fuel hfuel buf h => ?_⟩
  have hiff := @readsAlong_iff_sameBytes (freshDriver mount16) valid_mount16.usable rfl disk16
    nameA (132, 0) named_disk16 [2, 3] linked16_disk16.facts.1 hlong 4096 (by decide) fuel hfuel buf
  rw [hdue, entryAt_disk16.1] at hiff
  have hsame := (hiff.mp h).2 2048 (by decide)
  exact absurd hsame (by decide +kernel)

end MasterOS.Fat
