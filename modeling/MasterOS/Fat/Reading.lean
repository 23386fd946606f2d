/-
# What a read delivers

A directory is finite when the loop over its sectors ends by itself, and in such a directory
a search returns on every disk. `fat_read` is then its search and a loop over the chain of the
record, and along a chain that holds a file it delivers as many of the bytes as the buffer
takes.
-/

import MasterOS.Fat.AnySearch

namespace MasterOS.Fat

open MasterOS.Device MasterOS.Device.Prog MasterOS.Math

/-! ## Finite directories -/

/-- The root, or a directory whose chain comes to an end and leads through data clusters
only. Where it ends, the table may hold any value that is not a cluster of the chain. -/
def FiniteDir (m : Mount) (next : ℕ → ℕ) (dirc : ℕ) : Prop :=
  dirc = 0 ∨ (∃ k, dirCluster next dirc k = none) ∧
    ∀ k x, dirCluster next dirc k = some x → DataCluster m x

/-- A chain depends on the table's values at its own clusters. -/
theorem dirCluster_congr {next next' : ℕ → ℕ} {c : ℕ}
    (hsame : ∀ k x, dirCluster next c k = some x → next' x = next x) (k : ℕ) :
    dirCluster next' c k = dirCluster next c k := by
  induction k generalizing c with
  | zero => rfl
  | succ k ih =>
      rw [dirCluster, dirCluster, hsame 0 c rfl]
      split_ifs with hout
      · rfl
      · apply ih
        intro j x hx
        apply hsame (j + 1)
        rwa [dirCluster, if_neg hout]

theorem dirCluster_none_mono {next : ℕ → ℕ} {c i j : ℕ} (hnone : dirCluster next c i = none)
    (hij : i ≤ j) : dirCluster next c j = none := by
  obtain ⟨t, rfl⟩ := Nat.exists_eq_add_of_le hij
  rw [dirCluster_add, hnone]
  rfl

/-- Before a write the chain is followed again without a look at its links. Where the search
has come to a cluster, this comes to the same one. -/
theorem walkBack_any {fatBuf : FatBuf} {k c x : ℕ} (hin : InBuf c)
    (hx : dirCluster (fatNextCluster fatBuf) c k = some x) : walkBack fatBuf k c = .ret x := by
  induction k generalizing c with
  | zero => exact congrArg ret (Option.some.inj hx)
  | succ k ih =>
      have hlt := fatNextCluster_lt fatBuf c
      have hnext : InBuf (fatNextCluster fatBuf c) := by
        unfold InBuf
        omega
      rw [dirCluster] at hx
      split_ifs at hx
      rw [walkBack, loadEntry, if_pos hin, ret_bind]
      exact ih hnext hx

namespace FiniteDir

section Tables

variable {m : Mount} {next next' : ℕ → ℕ} {dirc : ℕ} (h : FiniteDir m next dirc)
  (hsame : ∀ x, DataCluster m x → next' x = next x)
include h hsame

theorem congr : FiniteDir m next' dirc := by
  rcases h with hroot | ⟨⟨k, hend⟩, hdata⟩
  · exact Or.inl hroot
  · have heq := dirCluster_congr fun k x hx => hsame x (hdata k x hx)
    exact Or.inr ⟨⟨k, (heq k).trans hend⟩, fun k x hx => hdata k x ((heq k).symm.trans hx)⟩

theorem dirLba_eq (s : ℕ) : dirLba m next' dirc s = dirLba m next dirc s := by
  rcases h with rfl | ⟨-, hdata⟩
  · rfl
  · rw [dirLba, dirLba, dirCluster_congr fun k x hx => hsame x (hdata k x hx)]

theorem slotAt_eq : slotAt m next' dirc = slotAt m next dirc := by
  funext n
  rw [slotAt, slotAt, h.dirLba_eq hsame]

end Tables

section Sectors

variable {m : Mount} (hu : m.Usable) {next : ℕ → ℕ} {dirc : ℕ} (h : FiniteDir m next dirc)
include hu h

/-- A sector of a finite directory lies in the root region, or in a cluster of its chain. -/
theorem sector_cases {s lba : ℕ} (hlba : dirLba m next dirc s = some lba) :
    dirc = 0 ∧ m.rootStart ≤ lba ∧ lba < m.dataStart ∨
      dirc ≠ 0 ∧ ∃ x, dirCluster next dirc (s / m.spc) = some x ∧ DataCluster m x ∧
        lba = m.clusterLba x (s % m.spc) := by
  rcases h with rfl | ⟨-, hdata⟩
  · have hstart := hu.dataStart_eq
    rw [dirLba, if_pos rfl] at hlba
    split_ifs at hlba
    obtain rfl := Option.some.inj hlba
    exact Or.inl ⟨rfl, by omega, by omega⟩
  · have hne : dirc ≠ 0 := by
      have hfirst := (hdata 0 dirc rfl).1
      omega
    rw [dirLba, if_neg hne, Option.map_eq_some_iff] at hlba
    obtain ⟨x, hx, rfl⟩ := hlba
    exact Or.inr ⟨hne, x, hx, hdata _ x hx, rfl⟩

theorem bounds {s lba : ℕ} (hlba : dirLba m next dirc s = some lba) :
    m.rootStart ≤ lba ∧ lba < 2 ^ 28 := by
  have hroot := hu.rootStart_le
  have hsec := hu.rootSectors_lt
  have hdata := hu.dataStart_eq
  rcases h.sector_cases hu hlba with ⟨-, hlow, hhigh⟩ | ⟨-, x, -, hx, rfl⟩
  · exact ⟨hlow, by omega⟩
  · have hk : s % m.spc < m.spc := Nat.mod_lt s hu.spc_pos
    have hlt : x < 65536 := lt_trans hx.lt (by decide)
    have hge := hu.dataStart_le_clusterLba hx.1 hlt hk
    exact ⟨by omega, hu.clusterLba_lt hx.1 hlt hk⟩

end Sectors

theorem lt {m : Mount} {next : ℕ → ℕ} {dirc : ℕ} (h : FiniteDir m next dirc) : dirc < 4096 := by
  rcases h with rfl | ⟨-, hdata⟩
  · decide
  · exact (hdata 0 dirc rfl).lt

section Walks

variable {m : Mount} (hu : m.Usable) {fatBuf : FatBuf} {dirc : ℕ}
  (h : FiniteDir m (fatNextCluster fatBuf) dirc)
include hu h

/-- The driver reads a finite directory sector by sector. -/
theorem readable : Readable m fatBuf dirc := by
  have hspc := m.spc_lt
  have hpos := hu.spc_pos
  have hlt := h.lt
  have hin : InBuf dirc := by
    unfold InBuf
    omega
  refine ⟨fun d s => ?_, fun s hs => ?_, fun s t hnone hst => ?_⟩
  · rw [Returns, readDirSector_exec hpos (by omega), if_pos (Or.inr (Or.inl hin)), dirSector]
    cases hlba : dirLba m (fatNextCluster fatBuf) dirc s with
    | none => rfl
    | some lba =>
        have hbound := (h.bounds hu hlba).2
        rw [Option.map_some, mod32_of_lt hbound, Nat.mod_eq_of_lt hbound]
  · rcases h with rfl | ⟨hend, hdata⟩
    · have hsec := hu.rootSectors_lt
      rw [dirLba, if_pos rfl, if_neg (by omega)]
    · have hne : dirc ≠ 0 := by
        have hfirst := (hdata 0 dirc rfl).1
        omega
      obtain ⟨k, hk, hnone⟩ := exists_dirCluster_le (Q := (· = none)) hend
      have hle : 4097 ≤ s / m.spc := by
        rw [Nat.le_div_iff_mul_le hpos]
        calc 4097 * m.spc ≤ 4097 * 255 := Nat.mul_le_mul_left _ (by omega)
          _ ≤ s := by omega
      rw [dirLba, if_neg hne, dirCluster_none_mono hnone (hk.trans hle)]
      rfl
  · by_cases hroot : dirc = 0
    · rw [dirLba, if_pos hroot] at hnone ⊢
      split_ifs at hnone with hlt
      rw [if_neg (by omega)]
    · rw [dirLba, if_neg hroot, Option.map_eq_none_iff] at hnone ⊢
      exact dirCluster_none_mono hnone (Nat.div_le_div_right hst)

/-- The sector of a finite directory is written back where it was read. -/
theorem writeDirSector_returns {s lba : ℕ}
    (hlba : dirLba m (fatNextCluster fatBuf) dirc s = some lba) (sector : Sector) (d : Disk) :
    (writeDirSector m dirc fatBuf s sector).Returns d 0 [(lba, sector)] := by
  have hbound := (h.bounds hu hlba).2
  have hlt := h.lt
  have hspc := hu.spc_pos
  unfold writeDirSector
  by_cases hroot : dirc = 0
  · rw [dirLba, if_pos hroot] at hlba
    split_ifs at hlba
    obtain rfl := Option.some.inj hlba
    rw [if_pos hroot]
    exact ataWrite_mod_returns sector hbound
  · rw [dirLba, if_neg hroot, Option.map_eq_some_iff] at hlba
    obtain ⟨c, hc, rfl⟩ := hlba
    have hin : InBuf dirc := by
      unfold InBuf
      omega
    rw [if_neg hroot, if_neg (by omega), Nat.mod_eq_of_lt (by omega), walkBack_any hin hc, ret_bind]
    exact ataWrite_returns sector hbound

end Walks

end FiniteDir

/-- A directory over a proper chain is finite. -/
theorem DirOk.finite {m : Mount} {next : ℕ → ℕ} {dirc : ℕ} (h : DirOk m next dirc) :
    FiniteDir m next dirc := by
  rcases h with hroot | ⟨l, hl⟩
  · exact Or.inl hroot
  · have hat := dirCluster_eq_getElem? hl
    refine Or.inr ⟨⟨l.length, ?_⟩, fun k x hx => ?_⟩
    · rw [hat, List.getElem?_eq_none (le_refl _)]
    · rw [hat] at hx
      exact hl.ok_of_mem (List.mem_of_getElem? hx)

/-- The search of a finite directory, by the table that an operation loads. -/
theorem FiniteDir.findSlot_returns {m : Mount} (hu : m.Usable) {d : Disk} {dirc : ℕ}
    (h : FiniteDir m (fatAt m d) dirc) (fatBuf : FatBuf) (verdict : RawDirEntry → Verdict)
    {fuel : ℕ} (hfuel : loopBound < fuel) :
    ∃ result, (findSlot m dirc (loaded m d fatBuf) verdict fuel 0).Returns d result [] ∧
      SearchResult (slotAt m (fatAt m d) dirc) d verdict result := by
  have hsame : ∀ x, DataCluster m x → fatNextCluster (loaded m d fatBuf) x = fatAt m d x :=
    fun x hx => fatNextCluster_loaded hx.2.2
  have hread := (h.congr hsame).readable hu
  obtain ⟨result, hreturns, hresult⟩ := hread.findSlot_returns verdict d
    (show 2 ^ 21 < fuel from lt_trans (by decide) hfuel)
  rw [h.slotAt_eq hsame] at hresult
  exact ⟨result, hreturns, hresult⟩

section Find

variable {m : Mount} (hu : m.Usable) {d : Disk} {dirc : ℕ} (h : FiniteDir m (fatAt m d) dirc)
  (fatBuf : FatBuf) {verdict : RawDirEntry → Verdict} {fuel : ℕ} (hfuel : loopBound < fuel)
include hu h hfuel

theorem findSlot_of_firstTake {n : ℕ} {loc : Loc}
    (htake : FirstTake (slotAt m (fatAt m d) dirc) d verdict n loc) :
    (findSlot m dirc (loaded m d fatBuf) verdict fuel 0).Returns d
      (some ⟨n / 16, d loc.1, loc.2⟩) [] := by
  obtain ⟨result, hreturns, hresult⟩ := h.findSlot_returns hu fatBuf verdict hfuel
  cases result with
  | none => exact absurd htake (hresult n loc)
  | some hit =>
      obtain ⟨n', loc', htake', rfl⟩ := hresult
      obtain ⟨rfl, rfl⟩ := htake'.unique htake
      rwa [htake'.hit_entry.1] at hreturns

theorem findSlot_of_no_firstTake
    (hnone : ∀ n loc, ¬ FirstTake (slotAt m (fatAt m d) dirc) d verdict n loc) :
    (findSlot m dirc (loaded m d fatBuf) verdict fuel 0).Returns d none [] := by
  obtain ⟨result, hreturns, hresult⟩ := h.findSlot_returns hu fatBuf verdict hfuel
  cases result with
  | none => exact hreturns
  | some hit =>
      obtain ⟨n, loc, htake, -⟩ := hresult
      exact absurd htake (hnone n loc)

end Find

/-! ## Reading the record found -/

/-- `fat_read` behind its search, for the record that it found. -/
def readEntry (m : Mount) (fatBuf : FatBuf) (fuel : ℕ) (e : RawDirEntry) (buf : ℕ → UInt8)
    (bufSize : ℕ) : FatProg (ℤ × (ℕ → UInt8)) :=
  if e.firstCluster.toNat < 2 ∨ e.fileSize.toNat = 0 then .ret (0, buf)
  else do
    match ← readChain m fatBuf e.fileSize.toNat bufSize fuel e.firstCluster.toNat 0 buf with
    | (none, buf) => .ret (-1, buf)
    | (some bytesRead, buf) => .ret (int32 bytesRead, buf)

section Read

variable {st : Driver} (hu : st.mount.Usable) {d : Disk}
  (h : FiniteDir st.mount (fatAt st.mount d) st.currentDirCluster) {name : CString} {fuel : ℕ}
  (hfuel : loopBound < fuel) (buf : ℕ → UInt8) (bufSize : ℕ)
include hu h hfuel

/-- What `fat_read` does when it finds a record. -/
theorem fatRead_found {n : ℕ} {loc : Loc}
    (htake : FirstTake (slotAt st.mount (fatAt st.mount d) st.currentDirCluster) d
      (fileVerdict name) n loc) :
    (fatRead fuel st name buf bufSize).exec d =
      (readEntry st.mount (loaded st.mount d (st.fatBuf .read)) fuel (entryAt d loc) buf
        bufSize >>= fun r =>
          .ret (r, st.keepBuf .read (loaded st.mount d (st.fatBuf .read)))).exec d := by
  have hfind := findSlot_of_firstTake hu h (st.fatBuf .read) hfuel htake
  rw [fatRead, withFat_exec_usable hu, hfind.exec_bind]
  dsimp only [applyWrites_nil]
  rw [show (Hit.mk (n / 16) (d loc.1) loc.2).entry = entryAt d loc from rfl, readEntry]
  split_ifs with hempty
  · rfl
  · rw [bind_assoc, List.nil_append]
    refine congrArg (Prog.exec · d) (congrArg _ (funext fun r => ?_))
    rcases r with ⟨_ | bytesRead, buf'⟩ <;> rfl

/-- What it returns when it finds none. -/
theorem fatRead_not_found
    (hnone : ∀ n loc, ¬ FirstTake (slotAt st.mount (fatAt st.mount d) st.currentDirCluster) d
      (fileVerdict name) n loc) :
    (fatRead fuel st name buf bufSize).Returns d
      ((-1, buf), st.keepBuf .read (loaded st.mount d (st.fatBuf .read))) [] := by
  have hfind := findSlot_of_no_firstTake hu h (st.fatBuf .read) hfuel hnone
  rw [fatRead, Returns, withFat_exec_usable hu]
  exact hfind.bind_nil rfl

end Read

/-! ## What a file contains -/

/-- The bytes along a chain of clusters. -/
def chainByte (m : Mount) (d : Disk) (l : List ℕ) (i : ℕ) : Option UInt8 :=
  (l[i / (512 * m.spc)]?).map fun c => (d (m.clusterLba c (i / 512 % m.spc))).byte (i % 512)

/-- The file that a name finds in a directory has this size, and these are its bytes. -/
def Contains (m : Mount) (d : Disk) (dirc : ℕ) (name : CString) (size : ℕ) (data : ℕ → UInt8) :
    Prop :=
  ∃ loc l, Named m d dirc (fileVerdict name) loc ∧ (entryAt d loc).fileSize.toNat = size ∧
    Owns m d (entryAt d loc) l ∧ ∀ i < size, chainByte m d l i = some (data i)

theorem Contains.congr {m : Mount} {d : Disk} {dirc size : ℕ} {name : CString}
    {data data' : ℕ → UInt8} (h : Contains m d dirc name size data)
    (same : ∀ i < size, data' i = data i) : Contains m d dirc name size data' := by
  obtain ⟨loc, l, hnamed, hfileSize, howns, hdata⟩ := h
  exact ⟨loc, l, hnamed, hfileSize, howns, fun i hi => by rw [same i hi, hdata i hi]⟩

theorem Contains.size_lt {m : Mount} {d : Disk} {dirc size : ℕ} {name : CString}
    {data : ℕ → UInt8} (h : Contains m d dirc name size data) : size < 2 ^ 32 := by
  obtain ⟨loc, -, -, rfl, -⟩ := h
  exact (entryAt d loc).fileSize.toNat_lt

/-- The walk along a proper chain goes through its clusters and ends with it. -/
theorem walkAt_of_chain {m : Mount} {next : ℕ → ℕ} {c : ℕ} {l : List ℕ}
    (h : Chain next (DataCluster m) EndMark c l) (k : ℕ) : walkAt next c k = l[k]? := by
  induction h generalizing k with
  | @last c hc hend =>
      have hwalked : Walked c := ⟨hc.1, hc.2.1⟩
      cases k with
      | zero => exact if_pos hwalked
      | succ k =>
          rw [walkAt_succ hwalked]
          refine walkAt_of_not_walked (fun hnext => ?_) k
          have hle := hnext.2
          unfold EndMark at hend
          omega
  | @link c l hc _ ih =>
      have hwalked : Walked c := ⟨hc.1, hc.2.1⟩
      cases k with
      | zero => exact if_pos hwalked
      | succ k =>
          rw [walkAt_succ hwalked, ih k]
          rfl

/-! ## Reading a file -/

/-- The first `n` bytes of a buffer are those of the data. -/
def Agrees (data buf : ℕ → UInt8) (n : ℕ) : Prop := ∀ j < n, buf j = data j

/-- The loop over a chain that holds the file reads to the nearer of the two limits. -/
theorem readChain_of_chain {m : Mount} (hu : m.Usable) {d : Disk} {fatBuf : FatBuf}
    {size bufSize c : ℕ} (hsize : size < 2 ^ 32) (hbuf : bufSize < 2 ^ 31) {l : List ℕ}
    (hchain : Chain (fatNextCluster fatBuf) (DataCluster m) EndMark c l) {data : ℕ → UInt8}
    (hdata : ∀ i < size, chainByte m d l i = some (data i)) {fuel : ℕ} (hfuel : loopBound < fuel)
    (buf : ℕ → UInt8) :
    ∃ out, (readChain m fatBuf size bufSize fuel c 0 buf).Returns d (some (min size bufSize), out)
        [] ∧ Agrees data out (min size bufSize) := by
  have hspc := hu.spc_pos
  have hbyte (i : ℕ) : walkByte m d (fatNextCluster fatBuf) c i = chainByte m d l i := by
    rw [walkByte, chainByte, walkAt_of_chain hchain]
  have hlong : ∀ k, 512 * m.spc * k < min size bufSize →
      walkAt (fatNextCluster fatBuf) c k ≠ none := by
    intro k hk hnone
    have hsome := hdata (512 * m.spc * k) (by omega)
    have hdiv : 512 * m.spc * k / (512 * m.spc) = k := Nat.mul_div_cancel_left k (by omega)
    rw [walkAt_of_chain hchain] at hnone
    rw [chainByte, hdiv, hnone] at hsome
    exact absurd hsome (by simp)
  obtain ⟨n, out, hreturns, -, hn, hbytes, -⟩ :=
    readChain_start hu d fatBuf hsize (show bufSize < 2 ^ 32 by omega) (by omega) hfuel c buf
  rw [← min_walkLength_of_long (by omega) hlong] at hn
  obtain rfl : n = min size bufSize := by exact_mod_cast hn
  refine ⟨out, hreturns, fun i hi => ?_⟩
  have hsome := hbytes i hi
  rw [hbyte, hdata i (by omega)] at hsome
  exact (Option.some.inj hsome).symm

/-- **A read delivers the part of the file that the buffer takes.** -/
theorem fatRead_contains {st : Driver} (hu : st.mount.Usable) {d : Disk}
    (hdir : DirOk st.mount (fatAt st.mount d) st.currentDirCluster) {name : CString} {size : ℕ}
    {data : ℕ → UInt8} (h : Contains st.mount d st.currentDirCluster name size data)
    {bufSize : ℕ} (hbuf : bufSize < 2 ^ 31) {fuel : ℕ} (hfuel : loopBound < fuel)
    (buf : ℕ → UInt8) :
    ∃ out, Agrees data out (min size bufSize) ∧
      (fatRead fuel st name buf bufSize).Returns d (((min size bufSize : ℕ), out),
        st.keepBuf .read (loaded st.mount d (st.fatBuf .read))) [] := by
  have hsize := h.size_lt
  obtain ⟨loc, l, ⟨n, htake⟩, hfileSize, howns, hdata⟩ := h
  have hentry : ∃ out, Agrees data out (min size bufSize) ∧
      (readEntry st.mount (loaded st.mount d (st.fatBuf .read)) fuel (entryAt d loc) buf
        bufSize).Returns d ((min size bufSize : ℕ), out) [] := by
    rw [readEntry, hfileSize]
    by_cases hzero : size = 0
    · refine ⟨buf, fun i hi => absurd hi (by omega), ?_⟩
      rw [if_pos (Or.inr hzero), hzero, Nat.zero_min]
      rfl
    · -- a file with bytes has a cluster, so it heads a chain
      have hchain : ChainOf st.mount d (entryAt d loc).firstCluster.toNat l := by
        rcases howns with ⟨-, -, rfl⟩ | hchain
        · have hnone := hdata 0 (by omega)
          rw [chainByte] at hnone
          exact absurd hnone (by simp)
        · exact hchain
      have htable : ∀ x ∈ l, fatNextCluster (loaded st.mount d (st.fatBuf .read)) x =
          fatAt st.mount d x := fun x hx => fatNextCluster_loaded (hchain.ok_of_mem hx).2.2
      have hfirst := hchain.ok_head.1
      obtain ⟨out, hreturns, hout⟩ := readChain_of_chain hu hsize hbuf (hchain.congr htable) hdata
        hfuel buf
      refine ⟨out, hout, ?_⟩
      rw [if_neg (by omega)]
      refine hreturns.bind_nil ?_
      dsimp only
      rw [int32_of_lt (by omega)]
      rfl
  obtain ⟨out, hout, hreturns⟩ := hentry
  refine ⟨out, hout, ?_⟩
  rw [Returns, fatRead_found hu hdir.finite hfuel buf bufSize htake]
  exact hreturns.bind_nil rfl

end MasterOS.Fat
