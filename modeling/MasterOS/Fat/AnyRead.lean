/-
# Reading through any table

`fat_read` on a table of any content. The loop over the chain follows the table for as long
as the entries are cluster numbers, so on a cycle only the two byte limits end it. What it
delivers is a prefix of the bytes along this walk, cut by the size of the file, the size of
the caller's buffer and the end of the walk, whichever comes first.
-/

import MasterOS.Fat.Freeing
import MasterOS.Fat.Blank
import Mathlib.Data.ENat.Lattice

namespace MasterOS.Fat

open MasterOS.Device MasterOS.Device.Prog MasterOS.Math

/-! ## The walk along a table -/

/-- The `k`-th cluster of the walk from `c`, unless the walk has left the cluster numbers. -/
def walkAt (next : ℕ → ℕ) (c : ℕ) : ℕ → Option ℕ
  | 0 => if Walked c then some c else none
  | k + 1 => if Walked c then walkAt next (next c) k else none

open Classical in
/-- The number of clusters on the walk, infinite when it goes on for ever. -/
noncomputable def walkLength (next : ℕ → ℕ) (c : ℕ) : ℕ∞ :=
  if h : ∃ k, walkAt next c k = none then (Nat.find h : ℕ∞) else ⊤

/-- The bytes along the walk: those of the sectors of its clusters, in order. -/
def walkByte (m : Mount) (d : Disk) (next : ℕ → ℕ) (c i : ℕ) : Option UInt8 :=
  (walkAt next c (i / (512 * m.spc))).map fun x =>
    (d (m.clusterLba x (i / 512 % m.spc))).byte (i % 512)

theorem walkAt_succ {next : ℕ → ℕ} {c : ℕ} (h : Walked c) (k : ℕ) :
    walkAt next c (k + 1) = walkAt next (next c) k := by
  rw [walkAt, if_pos h]

theorem walkAt_of_not_walked {next : ℕ → ℕ} {c : ℕ} (h : ¬ Walked c) (k : ℕ) :
    walkAt next c k = none := by
  cases k with
  | zero => rw [walkAt, if_neg h]
  | succ k => rw [walkAt, if_neg h]

theorem walkAt_walked {next : ℕ → ℕ} {c k x : ℕ} (h : walkAt next c k = some x) : Walked x := by
  induction k generalizing c with
  | zero =>
      rw [walkAt] at h
      split_ifs at h with hc
      obtain rfl := Option.some.inj h
      exact hc
  | succ k ih =>
      rw [walkAt] at h
      split_ifs at h with hc
      exact ih h

/-- A walk of at least `limit` bytes is not what cuts them. -/
theorem min_walkLength_of_long {next : ℕ → ℕ} {c unit limit : ℕ} (hunit : 0 < unit)
    (hlong : ∀ k, unit * k < limit → walkAt next c k ≠ none) :
    (limit : ℕ∞) = min (limit : ℕ∞) ((unit : ℕ∞) * walkLength next c) := by
  refine (min_eq_left ?_).symm
  rw [walkLength]
  split_ifs with hends
  · have hstop := Nat.find_spec hends
    have hle : limit ≤ unit * Nat.find hends := by
      by_contra hlt
      exact hlong _ (by omega) hstop
    exact_mod_cast hle
  · rw [ENat.mul_top (by exact_mod_cast hunit.ne')]
    exact le_top

/-- A walk of fewer bytes is. -/
theorem min_walkLength_of_short {next : ℕ → ℕ} {c unit limit k : ℕ}
    (hend : walkAt next c k = none) (hbefore : ∀ j < k, walkAt next c j ≠ none)
    (hle : unit * k ≤ limit) :
    ((unit * k : ℕ) : ℕ∞) = min (limit : ℕ∞) ((unit : ℕ∞) * walkLength next c) := by
  have hends : ∃ k, walkAt next c k = none := ⟨k, hend⟩
  have hfind : Nat.find hends = k := (Nat.find_eq_iff hends).mpr ⟨hend, hbefore⟩
  rw [walkLength, dif_pos hends, hfind, ← Nat.cast_mul]
  exact (min_eq_right (by exact_mod_cast hle)).symm

/-! ## Copying a prefix -/

/-- The caller's buffer after the first `r` bytes of a source have been copied into it. -/
def filled (src : ℕ → UInt8) (r : ℕ) (buf : ℕ → UInt8) : ℕ → UInt8 := fun i =>
  if i < r then src i else buf i

theorem filled_zero (src : ℕ → UInt8) (buf : ℕ → UInt8) : filled src 0 buf = buf := by
  funext i
  rw [filled, if_neg (Nat.not_lt_zero i)]

/-- Copying on from where the prefix ends makes a longer prefix. -/
theorem copyOut_filled {src : ℕ → UInt8} {buf : ℕ → UInt8} {off n : ℕ} {sector : Sector}
    (hsrc : ∀ k < n, sector.byte k = src (off + k)) :
    copyOut (filled src off buf) off n sector = filled src (off + n) buf := by
  funext i
  unfold copyOut filled
  by_cases hlow : i < off
  · rw [if_neg (by omega), if_pos hlow, if_pos (by omega)]
  · by_cases hmid : i < off + n
    · rw [if_pos (by omega), if_pos hmid, hsrc _ (by omega), Nat.add_sub_cancel' (by omega)]
    · rw [if_neg (by omega), if_neg hlow, if_neg hmid]

theorem sub32_of_le {a b : ℕ} (h : b ≤ a) (ha : a < 2 ^ 32) : sub32 a b = a - b := by
  unfold sub32
  omega

section Sectors

variable {fileSize bufSize : ℕ} (hfile : fileSize < 2 ^ 32) (hbuf : bufSize < 2 ^ 32)
  (hmin : min fileSize bufSize < 2 ^ 31)
include hfile hbuf hmin

/-- How many bytes of a sector are copied: up to the nearer of the two limits. -/
theorem toCopy_eq {read : ℕ} (hread : read ≤ min fileSize bufSize) :
    (let toCopy := if fileSize < (read + 512) % 2 ^ 32 then sub32 fileSize read else 512
      if bufSize < (read + toCopy) % 2 ^ 32 then sub32 bufSize read else toCopy) =
      min 512 (min fileSize bufSize - read) := by
  have hwrap : (read + 512) % 2 ^ 32 = read + 512 := Nat.mod_eq_of_lt (by omega)
  dsimp only
  rw [hwrap, sub32_of_le (show read ≤ fileSize by omega) hfile,
    sub32_of_le (show read ≤ bufSize by omega) hbuf]
  by_cases hshort : fileSize < read + 512
  · rw [if_pos hshort, Nat.mod_eq_of_lt (by omega)]
    split_ifs <;> omega
  · rw [if_neg hshort, hwrap]
    split_ifs <;> omega

/-- The sector loop of `fat_read` over the rest of a cluster. -/
theorem readSectors_filled {d : Disk} {lba base : ℕ} {src buf : ℕ → UInt8} (left s : ℕ)
    (hlba : ∀ k, s ≤ k → k < s + left → (lba + k) % 2 ^ 32 < 2 ^ 28)
    (hsrc : ∀ k, s ≤ k → k < s + left → ∀ b < 512,
      (d ((lba + k) % 2 ^ 32)).byte b = src (512 * (base + k) + b))
    (hread : 512 * (base + s) ≤ min fileSize bufSize) (hleft : 0 < left) :
    (readSectors lba fileSize bufSize left s (512 * (base + s))
        (filled src (512 * (base + s)) buf)).Returns d
      (if min fileSize bufSize ≤ 512 * (base + s + left) then
        .finished (min fileSize bufSize) (filled src (min fileSize bufSize) buf)
      else .more (512 * (base + s + left)) (filled src (512 * (base + s + left)) buf)) [] := by
  induction left generalizing s with
  | zero => exact absurd hleft (Nat.lt_irrefl 0)
  | succ left ih =>
      have haddr := hlba s le_rfl (by omega)
      have hcopy := toCopy_eq hfile hbuf hmin hread
      dsimp only at hcopy
      have hnext : (512 * (base + s) + min 512 (min fileSize bufSize - 512 * (base + s))) % 2 ^ 32 =
          512 * (base + s) + min 512 (min fileSize bufSize - 512 * (base + s)) :=
        Nat.mod_eq_of_lt (by omega)
      rw [readSectors]
      refine (ataRead_returns (d := d) haddr).bind_nil ?_
      dsimp only
      rw [hcopy, hnext, copyOut_filled fun k hk => hsrc s le_rfl (by omega) k (by omega)]
      by_cases hlast : min fileSize bufSize ≤ 512 * (base + s) + 512
      · -- one of the limits lies in this sector
        have hall : 512 * (base + s) + min 512 (min fileSize bufSize - 512 * (base + s)) =
            min fileSize bufSize := by omega
        rw [hall, if_pos (by omega), if_pos (by omega)]
        rfl
      · have hfull : 512 * (base + s) + min 512 (min fileSize bufSize - 512 * (base + s)) =
            512 * (base + (s + 1)) := by omega
        rw [hfull, if_neg (by omega)]
        by_cases hdone : left = 0
        · rw [hdone, readSectors, if_neg (by omega)]
          rfl
        · rw [show base + s + (left + 1) = base + (s + 1) + left by omega]
          exact ih (s + 1) (fun k h1 h2 => hlba k (by omega) (by omega))
            (fun k h1 h2 => hsrc k (by omega) (by omega)) (by omega) (by omega)

end Sectors

/-! ## The chain -/

section Chain

variable {m : Mount} (hu : m.Usable) {d : Disk} {fatBuf : FatBuf} {fileSize bufSize : ℕ}
  (hfile : fileSize < 2 ^ 32) (hbuf : bufSize < 2 ^ 32) (hmin : min fileSize bufSize < 2 ^ 31)
include hu hfile hbuf hmin

/-- The cluster loop of `fat_read` from the `k`-th cluster of the file on: it reads to the
nearer limit, or to the end of the walk. -/
theorem readChain_filled {src buf : ℕ → UInt8} {fuel c k : ℕ}
    (hfuel : min fileSize bufSize < 512 * m.spc * (k + fuel))
    (hread : 512 * m.spc * k ≤ min fileSize bufSize)
    (hsrc : ∀ j x, walkAt (fatNextCluster fatBuf) c j = some x → ∀ s < m.spc, ∀ b < 512,
      (d (m.clusterLba x s)).byte b = src (512 * ((k + j) * m.spc + s) + b)) :
    ∃ r, (readChain m fatBuf fileSize bufSize fuel c (512 * m.spc * k)
        (filled src (512 * m.spc * k) buf)).Returns d (some r, filled src r buf) [] ∧
      ((r = min fileSize bufSize ∧ ∀ j, 512 * m.spc * (k + j) < min fileSize bufSize →
          walkAt (fatNextCluster fatBuf) c j ≠ none) ∨
        ∃ j, walkAt (fatNextCluster fatBuf) c j = none ∧
          (∀ i < j, walkAt (fatNextCluster fatBuf) c i ≠ none) ∧
          r = 512 * m.spc * (k + j) ∧ r ≤ min fileSize bufSize) := by
  have hspc := hu.spc_pos
  induction fuel generalizing c k with
  | zero =>
      rw [Nat.add_zero] at hfuel
      omega
  | succ fuel ih =>
      by_cases hwalked : Walked c
      · have hunit : 512 * m.spc * k = 512 * (k * m.spc + 0) := by ring
        have hunit' : 512 * m.spc * (k + 1) = 512 * (k * m.spc + 0 + m.spc) := by ring
        have hhere : walkAt (fatNextCluster fatBuf) c 0 = some c := if_pos hwalked
        have hlt := hwalked.2
        have hsectors := @readSectors_filled _ _ hfile hbuf hmin d (m.clusterLba c 0)
          (k * m.spc) src buf m.spc 0
          (fun s _ hs => by
            rw [m.clusterLba_add]
            exact hu.clusterLba_lt hwalked.1 (by omega) (by omega))
          (fun s _ hs b hb => by
            rw [m.clusterLba_add, hsrc 0 c hhere s (by omega) b hb, Nat.add_zero])
          (hunit ▸ hread) (by omega)
        rw [← hunit, ← hunit'] at hsectors
        rw [readChain, if_pos (show 2 ≤ c ∧ c ≤ 0xFEF from hwalked)]
        by_cases hlast : min fileSize bufSize ≤ 512 * m.spc * (k + 1)
        · rw [if_pos hlast] at hsectors
          refine ⟨_, hsectors.bind_nil rfl, Or.inl ⟨rfl, fun j hj => ?_⟩⟩
          have hzero : j = 0 := by
            by_contra hne
            have hmul : 512 * m.spc * (k + 1) ≤ 512 * m.spc * (k + j) :=
              Nat.mul_le_mul_left _ (by omega)
            omega
          rw [hzero, hhere]
          exact Option.some_ne_none c
        · rw [if_neg hlast] at hsectors
          have hentry : loadEntry fatBuf c = .ret (fatNextCluster fatBuf c) := by
            rw [loadEntry, if_pos hwalked.inBuf]
          by_cases hout : fatNextCluster fatBuf c < 2
          · refine ⟨512 * m.spc * (k + 1), hsectors.bind_nil ?_, Or.inr ⟨1, ?_, ?_, rfl, by omega⟩⟩
            · dsimp only
              rw [hentry, ret_bind, if_pos hout]
              rfl
            · rw [walkAt_succ hwalked]
              exact walkAt_of_not_walked (fun h => absurd h.1 (by omega)) 0
            · intro i hi
              obtain rfl := Nat.lt_one_iff.mp hi
              rw [hhere]
              exact Option.some_ne_none c
          · obtain ⟨r, hrest, hr⟩ := @ih (fatNextCluster fatBuf c) (k + 1)
              (by rw [show k + 1 + fuel = k + (fuel + 1) by omega]; exact hfuel) (by omega)
              (fun j x hx s hs b hb => by
                rw [show k + 1 + j = k + (j + 1) by omega]
                exact hsrc (j + 1) x ((walkAt_succ hwalked j).trans hx) s hs b hb)
            refine ⟨r, hsectors.bind_nil ?_, ?_⟩
            · dsimp only
              rw [hentry, ret_bind, if_neg hout]
              exact hrest
            · rcases hr with ⟨rfl, hlong⟩ | ⟨j, hend, hbefore, hr, hle⟩
              · refine Or.inl ⟨rfl, fun j hj => ?_⟩
                cases j with
                | zero =>
                    rw [hhere]
                    exact Option.some_ne_none c
                | succ j =>
                    rw [walkAt_succ hwalked]
                    exact hlong j (by rw [show k + 1 + j = k + (j + 1) by omega]; exact hj)
              · refine Or.inr ⟨j + 1, (walkAt_succ hwalked j).trans hend, fun i hi => ?_, ?_, hle⟩
                · cases i with
                  | zero =>
                      rw [hhere]
                      exact Option.some_ne_none c
                  | succ i =>
                      rw [walkAt_succ hwalked]
                      exact hbefore i (by omega)
                · rw [hr, show k + 1 + j = k + (j + 1) by omega]
      · rw [readChain, if_neg (show ¬ (2 ≤ c ∧ c ≤ 0xFEF) from hwalked)]
        refine ⟨_, rfl, Or.inr ⟨0, walkAt_of_not_walked hwalked 0, fun i hi => ?_, rfl, hread⟩⟩
        exact absurd hi (Nat.not_lt_zero i)

end Chain

/-! ## The whole of `fat_read` -/

/-- What `fat_read` delivers of the record it found: nothing for one without data, and else
the bytes along the walk, up to the size of the file, the size of the buffer and the end of
the walk. -/
def Delivers (m : Mount) (d : Disk) (next : ℕ → ℕ) (e : RawDirEntry) (bufSize : ℕ)
    (buf : ℕ → UInt8) (r : ℤ) (buf' : ℕ → UInt8) : Prop :=
  if e.firstCluster.toNat < 2 ∨ e.fileSize.toNat = 0 then r = 0 ∧ buf' = buf
  else ∃ n : ℕ, r = n ∧
    (n : ℕ∞) = min ((min e.fileSize.toNat bufSize : ℕ) : ℕ∞)
      ((512 * m.spc : ℕ) * walkLength next e.firstCluster.toNat) ∧
    (∀ i < n, walkByte m d next e.firstCluster.toNat i = some (buf' i)) ∧
    ∀ i, n ≤ i → buf' i = buf i

/-- The bytes along a walk, cluster by cluster. -/
theorem walkByte_eq {m : Mount} (hspc : 1 ≤ m.spc) {d : Disk} {next : ℕ → ℕ} {c j x : ℕ}
    (hx : walkAt next c j = some x) {s b : ℕ} (hs : s < m.spc) (hb : b < 512) :
    walkByte m d next c (512 * (j * m.spc + s) + b) = some ((d (m.clusterLba x s)).byte b) := by
  have hsector : (512 * (j * m.spc + s) + b) / 512 = j * m.spc + s := by omega
  have hcluster : (512 * (j * m.spc + s) + b) / (512 * m.spc) = j := by
    rw [← Nat.div_div_eq_div_mul, hsector, Nat.mul_comm, Nat.mul_add_div (by omega),
      Nat.div_eq_of_lt hs, Nat.add_zero]
  have hwithin : (j * m.spc + s) % m.spc = s := by
    rw [Nat.mul_comm, Nat.mul_add_mod, Nat.mod_eq_of_lt hs]
  rw [walkByte, hcluster, hsector, hwithin, hx, Option.map_some,
    show (512 * (j * m.spc + s) + b) % 512 = b by omega]

/-- The walk has a byte at every place before its end. -/
theorem walkByte_isSome {m : Mount} {d : Disk} {next : ℕ → ℕ} {c i : ℕ}
    (h : walkAt next c (i / (512 * m.spc)) ≠ none) :
    walkByte m d next c i = some ((walkByte m d next c i).getD 0) := by
  obtain ⟨x, hx⟩ := Option.ne_none_iff_exists'.mp h
  rw [walkByte, hx]
  rfl

/-- The loop over the chain from its start. -/
theorem readChain_start {m : Mount} (hu : m.Usable) (d : Disk) (fatBuf : FatBuf)
    {fileSize bufSize : ℕ} (hfile : fileSize < 2 ^ 32) (hbuf : bufSize < 2 ^ 32)
    (hmin : min fileSize bufSize < 2 ^ 31) {fuel : ℕ} (hfuel : loopBound < fuel) (c : ℕ)
    (buf : ℕ → UInt8) :
    ∃ n buf', (readChain m fatBuf fileSize bufSize fuel c 0 buf).Returns d (some n, buf') [] ∧
      n ≤ min fileSize bufSize ∧
      (n : ℕ∞) = min ((min fileSize bufSize : ℕ) : ℕ∞)
        ((512 * m.spc : ℕ) * walkLength (fatNextCluster fatBuf) c) ∧
      (∀ i < n, walkByte m d (fatNextCluster fatBuf) c i = some (buf' i)) ∧
      ∀ i, n ≤ i → buf' i = buf i := by
  have hspc := hu.spc_pos
  set src : ℕ → UInt8 := fun i => (walkByte m d (fatNextCluster fatBuf) c i).getD 0 with hsrcdef
  have henough : min fileSize bufSize < 512 * m.spc * (0 + fuel) := by
    have hmul : 512 * fuel ≤ 512 * m.spc * fuel := Nat.mul_le_mul_right _ (by omega)
    have hbound : (2 : ℕ) ^ 24 = loopBound := rfl
    rw [Nat.zero_add]
    omega
  obtain ⟨n, hreturns, hn⟩ := @readChain_filled m hu d fatBuf _ _ hfile hbuf hmin src buf fuel c 0
    henough (by rw [Nat.mul_zero]; exact Nat.zero_le _)
    (fun j x hx s hs b hb => by
      rw [Nat.zero_add, hsrcdef]
      dsimp only
      rw [walkByte_eq hspc hx hs hb]
      rfl)
  rw [Nat.mul_zero, filled_zero] at hreturns
  have hwithin : ∀ i < n, walkAt (fatNextCluster fatBuf) c (i / (512 * m.spc)) ≠ none := by
    intro i hi
    have hle := Nat.mul_div_le i (512 * m.spc)
    rcases hn with ⟨rfl, hlong⟩ | ⟨j, -, hbefore, rfl, -⟩
    · exact hlong _ (by rw [Nat.zero_add]; omega)
    · rw [Nat.zero_add] at hi
      exact hbefore _ (Nat.div_lt_of_lt_mul hi)
  refine ⟨n, _, hreturns, ?_, ?_, fun i hi => ?_, fun i hi => ?_⟩
  · rcases hn with ⟨rfl, -⟩ | ⟨j, -, -, -, hle⟩ <;> omega
  · rcases hn with ⟨rfl, hlong⟩ | ⟨j, hend, hbefore, rfl, hle⟩
    · exact min_walkLength_of_long (by omega) fun k hk => hlong k (by rw [Nat.zero_add]; exact hk)
    · rw [Nat.zero_add] at hle ⊢
      exact min_walkLength_of_short hend hbefore hle
  · rw [walkByte_isSome (hwithin i hi), filled, if_pos hi]
  · rw [filled, if_neg (by omega)]

/-- **Reading is safe and exact on any table.** `fat_read` in the root directory ends. It
fails when the search finds no file of the name, and the caller's buffer is as it was;
else it delivers the bytes along the walk through the table. -/
theorem fatRead_any_table {st : Driver} {d : Disk} (hu : st.mount.Usable)
    (hroot : st.currentDirCluster = 0) (name : CString) (buf : ℕ → UInt8) {bufSize : ℕ}
    (hbuf : bufSize < 2 ^ 31) (more : ℕ) :
    ∃ r buf' st',
      (fatRead (loopBound + 1 + more) st name buf bufSize).Returns d ((r, buf'), st') [] ∧
      ((r = -1 ∧ buf' = buf ∧ ∀ loc, ¬ Named st.mount d 0 (fileVerdict name) loc) ∨
        ∃ loc, Named st.mount d 0 (fileVerdict name) loc ∧
          Delivers st.mount d (fatNextCluster (loaded st.mount d (st.fatBuf .read)))
            (entryAt d loc) bufSize buf r buf') := by
  have hfuel : loopBound < loopBound + 1 + more := by omega
  have hsearch : (2 : ℕ) ^ 21 < loopBound + 1 + more := by
    have hbound : (2 : ℕ) ^ 24 = loopBound := rfl
    omega
  set table := loaded st.mount d (st.fatBuf .read) with htable
  have hslot : slotAt st.mount (fatNextCluster table) 0 = slotAt st.mount (fatAt st.mount d) 0 :=
    funext fun n => slotAt_congr (Or.inl rfl) n
  obtain ⟨result, hfind, hresult⟩ := @findSlot_returns _ hu table _ (Or.inl rfl)
    (fileVerdict name) d _ hsearch
  rw [hslot] at hresult
  simp only [Returns, fatRead, withFat_exec_usable hu, ← htable, hroot]
  cases result with
  | none =>
      refine ⟨-1, buf, st.keepBuf .read table, hfind.bind_nil rfl, Or.inl ⟨rfl, rfl, ?_⟩⟩
      rintro loc ⟨n, htake⟩
      exact hresult n loc htake
  | some hit =>
      obtain ⟨n, loc, htake, rfl⟩ := hresult
      have hentry := htake.hit_entry.2
      by_cases hempty : (entryAt d loc).firstCluster.toNat < 2 ∨ (entryAt d loc).fileSize.toNat = 0
      · refine ⟨0, buf, st.keepBuf .read table, hfind.bind_nil ?_, Or.inr ⟨loc, ⟨n, htake⟩, ?_⟩⟩
        · dsimp only
          rw [hentry, if_pos hempty]
          rfl
        · rw [Delivers, if_pos hempty]
          exact ⟨rfl, rfl⟩
      · have hmin : min (entryAt d loc).fileSize.toNat bufSize < 2 ^ 31 := by omega
        obtain ⟨r, buf', hchain, hle, hr, hbytes, hrest⟩ :=
          readChain_start hu d table (entryAt d loc).fileSize.toNat_lt (hbuf.trans (by decide))
            hmin hfuel (entryAt d loc).firstCluster.toNat buf
        refine ⟨r, buf', st.keepBuf .read table, hfind.bind_nil ?_, Or.inr ⟨loc, ⟨n, htake⟩, ?_⟩⟩
        · dsimp only
          rw [hentry, if_neg hempty]
          refine hchain.bind_nil ?_
          dsimp only
          rw [int32_of_lt (by omega)]
          rfl
        · rw [Delivers, if_neg hempty]
          exact ⟨r, rfl, hr, hbytes, hrest⟩

/-- A volume whose file `A` of 1500 bytes is a single cluster, which links to itself. -/
def circleFile : Disk :=
  Function.update (Function.update (Function.update blank
    1 (.ofBytes fun k => if k = 3 then 2 else 0))
    2 ((blank 2).setEntry 0 (newEntry nameA 0x00 2 1500)))
    3 (.ofBytes fun k => UInt8.ofNat k)

/-- Round a circle the walk goes on for ever. -/
theorem walkAt_circle {next : ℕ → ℕ} {c : ℕ} (hc : Walked c) (h : next c = c) (k : ℕ) :
    walkAt next c k = some c := by
  induction k with
  | zero => rw [walkAt, if_pos hc]
  | succ k ih => rw [walkAt_succ hc, h, ih]

/-- The cluster is read twice, until the buffer of 700 bytes is full. -/
theorem fatRead_any_table_circleFile : ∃ buf' st',
    (fatRead (loopBound + 1 + 0) (freshDriver smallMount) nameA (fun _ => 0) 700).Returns circleFile
      ((700, buf'), st') [] ∧ ∀ i < 700, buf' i = UInt8.ofNat (i % 512) := by
  have hentry : (entryAt circleFile (2, 0)).firstCluster.toNat = 2 ∧
      (entryAt circleFile (2, 0)).fileSize.toNat = 1500 := by decide +kernel
  have hfirst : FirstTake (slotAt smallMount (fatAt smallMount circleFile) 0) circleFile
      (fileVerdict nameA) 0 (2, 0) :=
    ⟨rfl, by decide +kernel, fun k hk => absurd hk (Nat.not_lt_zero k)⟩
  have hself : fatNextCluster (loaded smallMount circleFile fun _ => 0) 2 = 2 := by
    rw [fatNextCluster_loaded (by decide)]
    decide +kernel
  have hwalk := walkAt_circle (by decide) hself
  have hlength : walkLength (fatNextCluster (loaded smallMount circleFile fun _ => 0)) 2 = ⊤ := by
    refine dif_neg fun ⟨k, hk⟩ => ?_
    rw [hwalk k] at hk
    cases hk
  obtain ⟨r, buf', st', hreads, ⟨-, -, hnone⟩ | ⟨loc, ⟨n, hfound⟩, hdelivers⟩⟩ :=
    @fatRead_any_table (freshDriver smallMount) circleFile valid_smallMount.usable rfl nameA
      (fun _ => 0) 700 (by decide) 0
  · exact absurd ⟨0, hfirst⟩ (hnone _)
  · obtain ⟨-, rfl⟩ := hfirst.unique hfound
    have hdelivers : Delivers smallMount circleFile
        (fatNextCluster (loaded smallMount circleFile fun _ => 0)) (entryAt circleFile (2, 0)) 700
        (fun _ => 0) r buf' := hdelivers
    rw [Delivers, hentry.1, hentry.2, if_neg (by decide), hlength] at hdelivers
    obtain ⟨n, rfl, hn, hbytes, -⟩ := hdelivers
    obtain rfl : n = 700 := by
      rw [ENat.mul_top (by decide), min_top_right] at hn
      exact Nat.cast_inj.mp hn
    refine ⟨buf', st', hreads, fun i hi => ?_⟩
    have hbyte := hbytes i hi
    have hsector : circleFile (smallMount.clusterLba 2 (i / 512 % smallMount.spc)) =
        .ofBytes fun k => UInt8.ofNat k := by
      rw [show smallMount.spc = 1 from rfl, Nat.mod_one]
      rfl
    rw [walkByte, hwalk, Option.map_some, hsector, Sector.byte_ofBytes _ (Nat.mod_lt _ (by decide))]
      at hbyte
    exact (Option.some.inj hbyte).symm

end MasterOS.Fat
