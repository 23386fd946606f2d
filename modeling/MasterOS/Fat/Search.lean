/-
# Searching a directory

The operations find their slot by one loop over the current directory. Over a
directory that is the root or a proper chain the loop ends, writes nothing, and
finds the first slot its test takes with every slot before it passed over. The
sector it hands back is written where it was read, as long as the table still
links the directory's chain.
-/

import MasterOS.Fat.Steps
import Mathlib.Data.List.Perm.Subperm

namespace MasterOS.Fat

open MasterOS.Device MasterOS.Device.Prog MasterOS.Math

/-- A directory as the driver can walk it with this table: the root, or a proper
chain. -/
def DirOk (m : Mount) (next : ℕ → ℕ) (dirc : ℕ) : Prop :=
  dirc = 0 ∨ ∃ l, Chain next (DataCluster m) EndMark dirc l

/-- Slot `n`, at `loc`, is the first one the test takes, and the test passes over
every slot before it. -/
def FirstTake (slot : ℕ → Option Loc) (d : Disk) (verdict : RawDirEntry → Verdict) (n : ℕ)
    (loc : Loc) : Prop :=
  slot n = some loc ∧ verdict (entryAt d loc) = .take ∧
    ∀ k < n, ∀ loc', slot k = some loc' → verdict (entryAt d loc') = .skip

/-- The slot a test takes in a directory. -/
def Named (m : Mount) (d : Disk) (dirc : ℕ) (verdict : RawDirEntry → Verdict) (loc : Loc) : Prop :=
  ∃ n, FirstTake (slotAt m (fatAt m d) dirc) d verdict n loc

theorem FirstTake.unique {slot : ℕ → Option Loc} {d : Disk} {verdict : RawDirEntry → Verdict}
    {n n' : ℕ} {loc loc' : Loc} (h : FirstTake slot d verdict n loc)
    (h' : FirstTake slot d verdict n' loc') : n = n' ∧ loc = loc' := by
  have htake {x y : ℕ} {p q : Loc} (hx : FirstTake slot d verdict x p)
      (hy : FirstTake slot d verdict y q) : ¬ x < y := by
    intro hlt
    have hskip := hy.2.2 x hlt p hx.1
    rw [hx.2.1] at hskip
    exact absurd hskip (by decide)
  have hn : n = n' := by
    have h1 := htake h h'
    have h2 := htake h' h
    omega
  subst hn
  exact ⟨rfl, Option.some.inj (h.1.symm.trans h'.1)⟩

/-- A search that is not stopped before a slot it would take takes one. -/
theorem exists_firstTake {slot : ℕ → Option Loc} {d : Disk} {verdict : RawDirEntry → Verdict}
    {n : ℕ} {loc : Loc} (hloc : slot n = some loc) (htake : verdict (entryAt d loc) = .take)
    (hgo : ∀ k < n, ∀ loc', slot k = some loc' → verdict (entryAt d loc') ≠ .stop) :
    ∃ n' loc', n' ≤ n ∧ FirstTake slot d verdict n' loc' := by
  induction n using Nat.strong_induction_on generalizing loc with
  | _ n ih =>
      by_cases hall : ∀ k < n, ∀ loc', slot k = some loc' → verdict (entryAt d loc') = .skip
      · exact ⟨n, loc, le_rfl, hloc, htake, hall⟩
      · push Not at hall
        obtain ⟨k, hk, loc', hloc', hne⟩ := hall
        have htake' : verdict (entryAt d loc') = .take := by
          cases hverdict : verdict (entryAt d loc') with
          | skip => exact absurd hverdict hne
          | stop => exact absurd hverdict (hgo k hk loc' hloc')
          | take => rfl
        obtain ⟨n', loc'', hle, hfirst⟩ :=
          ih k hk hloc' htake' fun j hj => hgo j (lt_trans hj hk)
        exact ⟨n', loc'', by omega, hfirst⟩

/-! ## Walking the directory's chain -/

theorem DirOk.lt {m : Mount} {next : ℕ → ℕ} {dirc : ℕ} (h : DirOk m next dirc) : dirc < 4096 := by
  rcases h with rfl | ⟨l, hl⟩
  · omega
  · exact hl.ok_head.lt

theorem walkDir_eq {m : Mount} {fatBuf : FatBuf} {c : ℕ} {l : List ℕ}
    (h : Chain (fatNextCluster fatBuf) (DataCluster m) EndMark c l) (k : ℕ) :
    walkDir fatBuf k c = .ret (dirCluster (fatNextCluster fatBuf) c k) := by
  induction k generalizing c l with
  | zero => rfl
  | succ k ih =>
      have hlt := h.ok_head.lt
      rw [walkDir, loadEntry_of_lt (by omega), ret_bind, dirCluster]
      split_ifs with hout
      · rfl
      · cases h with
        | last _ hend =>
            unfold EndMark at hend
            omega
        | link _ hrest => exact ih hrest

theorem walkBack_eq {m : Mount} {fatBuf : FatBuf} {c x k : ℕ} {l : List ℕ}
    (h : Chain (fatNextCluster fatBuf) (DataCluster m) EndMark c l)
    (hx : dirCluster (fatNextCluster fatBuf) c k = some x) : walkBack fatBuf k c = .ret x := by
  induction k generalizing c l with
  | zero =>
      injection hx with hx
      exact congrArg ret hx
  | succ k ih =>
      have hlt := h.ok_head.lt
      rw [walkBack, loadEntry_of_lt (by omega), ret_bind]
      rw [dirCluster] at hx
      split_ifs at hx with hout
      cases h with
      | last _ hend =>
          unfold EndMark at hend
          omega
      | link _ hrest => exact ih hrest hx

/-- A chain of data clusters is short. -/
theorem chain_length_le {m : Mount} {next : ℕ → ℕ} {c : ℕ} {l : List ℕ}
    (h : Chain next (DataCluster m) EndMark c l) : l.length ≤ 4096 := by
  have hsub : l ⊆ List.range 4096 := fun x hx => List.mem_range.mpr (h.ok_of_mem hx).lt
  have hlen := ((h.nodup (not_dataCluster_of_endMark m)).subperm hsub).length_le
  rwa [List.length_range] at hlen

/-- A directory has fewer than `2 ^ 21` sectors. -/
theorem dirLba_eq_none_of_le {m : Mount} {next : ℕ → ℕ} {dirc s : ℕ} (hu : m.Usable)
    (h : DirOk m next dirc) (hs : 2 ^ 21 ≤ s) : dirLba m next dirc s = none := by
  have hspc := m.spc_lt
  have hpos := hu.spc_pos
  rcases h with rfl | ⟨l, hl⟩
  · have hsec := hu.rootSectors_lt
    rw [dirLba, if_pos rfl, if_neg (by omega)]
  · have hlen := chain_length_le hl
    have hle : 4096 ≤ s / m.spc := by
      rw [Nat.le_div_iff_mul_le hpos]
      calc 4096 * m.spc ≤ 4096 * 255 := Nat.mul_le_mul_left _ (by omega)
        _ ≤ s := by omega
    rw [dirLba_of_chain hl, List.getElem?_eq_none (by omega)]
    rfl

/-- A directory's sectors have no gaps. -/
theorem dirLba_eq_none_mono {m : Mount} {next : ℕ → ℕ} {dirc s t : ℕ}
    (h : DirOk m next dirc) (hs : dirLba m next dirc s = none) (hst : s ≤ t) :
    dirLba m next dirc t = none := by
  rcases h with rfl | ⟨l, hl⟩
  · rw [dirLba, if_pos rfl] at hs ⊢
    split_ifs at hs with hlt
    rw [if_neg (by omega)]
  · rw [dirLba_of_chain hl, Option.map_eq_none_iff, List.getElem?_eq_none_iff] at hs ⊢
    exact le_trans hs (Nat.div_le_div_right hst)

/-- `read_dir_sector` over a proper directory. -/
theorem readDirSector_returns {m : Mount} (hu : m.Usable) {fatBuf : FatBuf} {dirc : ℕ}
    (h : DirOk m (fatNextCluster fatBuf) dirc) (s : ℕ) (d : Disk) :
    (readDirSector m dirc fatBuf s).Returns d
      (match dirLba m (fatNextCluster fatBuf) dirc s with
        | some lba => .ok (d lba)
        | none => .error 1) [] := by
  have hbound (lba : ℕ) (hlba : dirLba m (fatNextCluster fatBuf) dirc s = some lba) :=
    dirLba_bounds hu h hlba
  have hlt := h.lt
  rcases h with rfl | ⟨l, hl⟩
  · unfold readDirSector
    rw [if_pos rfl]
    rw [dirLba, if_pos rfl] at hbound ⊢
    by_cases hs : m.rootSectors ≤ s
    · rw [if_pos hs, if_neg (by omega)]
      rfl
    · rw [if_pos (by omega : s < m.rootSectors)] at hbound
      rw [if_neg hs, if_pos (by omega : s < m.rootSectors)]
      exact returns_bind_iff.mpr ⟨_, [], [], ataRead_mod_returns (hbound _ rfl).2, rfl, rfl⟩
  · have hne : dirc ≠ 0 := by
      have := hl.ok_head.1
      omega
    have hspc := hu.spc_pos
    unfold readDirSector
    rw [if_neg hne, if_neg (by omega), Nat.mod_eq_of_lt (by omega), walkDir_eq hl, ret_bind]
    rw [dirLba, if_neg hne] at hbound ⊢
    cases hc : dirCluster (fatNextCluster fatBuf) dirc (s / m.spc) with
    | none => rfl
    | some c =>
        rw [hc] at hbound
        exact returns_bind_iff.mpr ⟨_, [], [], ataRead_returns (hbound _ rfl).2, rfl, rfl⟩

/-- The sector an operation changed is written back where it was read. -/
theorem writeDirSector_returns {m : Mount} (hu : m.Usable) {fatBuf : FatBuf} {dirc s lba : ℕ}
    (h : DirOk m (fatNextCluster fatBuf) dirc)
    (hlba : dirLba m (fatNextCluster fatBuf) dirc s = some lba) (sector : Sector) (d : Disk) :
    (writeDirSector m dirc fatBuf s sector).Returns d 0 [(lba, sector)] := by
  have hbound := dirLba_bounds hu h hlba
  have hlt := h.lt
  rcases h with rfl | ⟨l, hl⟩
  · rw [dirLba, if_pos rfl] at hlba
    split_ifs at hlba
    injection hlba with hlba
    subst hlba
    unfold writeDirSector
    rw [if_pos rfl]
    exact ataWrite_mod_returns sector hbound.2
  · have hne : dirc ≠ 0 := by
      have := hl.ok_head.1
      omega
    have hspc := hu.spc_pos
    rw [dirLba, if_neg hne, Option.map_eq_some_iff] at hlba
    obtain ⟨c, hc, rfl⟩ := hlba
    unfold writeDirSector
    rw [if_neg hne, if_neg (by omega), Nat.mod_eq_of_lt (by omega), walkBack_eq hl hc, ret_bind]
    exact ataWrite_returns sector hbound.2

/-- A directory whose sectors `read_dir_sector` delivers in order: there is no gap between
them and they are over early. -/
structure Readable (m : Mount) (fatBuf : FatBuf) (dirc : ℕ) : Prop where
  reads : ∀ (d : Disk) (s : ℕ), (readDirSector m dirc fatBuf s).Returns d
    (match dirLba m (fatNextCluster fatBuf) dirc s with
      | some lba => .ok (d lba)
      | none => .error 1) []
  ends : ∀ s, 2 ^ 21 ≤ s → dirLba m (fatNextCluster fatBuf) dirc s = none
  noGap : ∀ s t, dirLba m (fatNextCluster fatBuf) dirc s = none → s ≤ t →
    dirLba m (fatNextCluster fatBuf) dirc t = none

theorem DirOk.readable {m : Mount} (hu : m.Usable) {fatBuf : FatBuf} {dirc : ℕ}
    (h : DirOk m (fatNextCluster fatBuf) dirc) : Readable m fatBuf dirc where
  reads d s := readDirSector_returns hu h s d
  ends _ hs := dirLba_eq_none_of_le hu h hs
  noGap _ _ hs hst := dirLba_eq_none_mono h hs hst

/-! ## The search -/

/-- What a scan over consecutive slots of a sector says. -/
theorem scanSlots_range' (verdict : RawDirEntry → Verdict) (sector : Sector) (a k : ℕ) :
    match scanSlots verdict sector (List.range' a k) with
    | .nothing => ∀ i, a ≤ i → i < a + k → verdict (sector.entry i) = .skip
    | .ended => ∃ i, a ≤ i ∧ i < a + k ∧ verdict (sector.entry i) = .stop ∧
        ∀ j, a ≤ j → j < i → verdict (sector.entry j) = .skip
    | .hit i => a ≤ i ∧ i < a + k ∧ verdict (sector.entry i) = .take ∧
        ∀ j, a ≤ j → j < i → verdict (sector.entry j) = .skip := by
  induction k generalizing a with
  | zero => simp only [List.range'_zero, scanSlots]; intro i h1 h2; omega
  | succ k ih =>
      rw [List.range'_succ, scanSlots]
      cases hverdict : verdict (sector.entry a) with
      | stop => exact ⟨a, le_rfl, by omega, hverdict, fun j h1 h2 => by omega⟩
      | take => exact ⟨le_rfl, by omega, hverdict, fun j h1 h2 => by omega⟩
      | skip =>
          -- the slots after `a` are judged by the induction hypothesis, `a` by the case
          have hcons (j : ℕ) (h1 : a ≤ j) (h : a + 1 ≤ j → verdict (sector.entry j) = .skip) :
              verdict (sector.entry j) = .skip := by
            rcases Nat.eq_or_lt_of_le h1 with rfl | hlt
            · exact hverdict
            · exact h hlt
          have hrest := ih (a + 1)
          dsimp only
          cases hscan : scanSlots verdict sector (List.range' (a + 1) k) with
          | nothing =>
              rw [hscan] at hrest
              exact fun i h1 h2 => hcons i h1 fun h => hrest i h (by omega)
          | ended =>
              rw [hscan] at hrest
              obtain ⟨i, h1, h2, hstop, hbefore⟩ := hrest
              exact ⟨i, by omega, by omega, hstop,
                fun j hj hji => hcons j hj fun h => hbefore j h hji⟩
          | hit i =>
              rw [hscan] at hrest
              obtain ⟨h1, h2, htake, hbefore⟩ := hrest
              exact ⟨by omega, by omega, htake,
                fun j hj hji => hcons j hj fun h => hbefore j h hji⟩

section Search

variable {m : Mount} {fatBuf : FatBuf} {dirc : ℕ} (hread : Readable m fatBuf dirc)
  (verdict : RawDirEntry → Verdict) (d : Disk)

include hread in
theorem findSlot_succ_exec (fuel s : ℕ) :
    (findSlot m dirc fatBuf verdict (fuel + 1) s).exec d =
      match dirLba m (fatNextCluster fatBuf) dirc s with
      | none => (.ok none, [])
      | some lba =>
          match scanSlots verdict (d lba) (List.range 16) with
          | .nothing => (findSlot m dirc fatBuf verdict fuel (s + 1)).exec d
          | .ended => (.ok none, [])
          | .hit i => (.ok (some ⟨s, d lba, i⟩), []) := by
  rw [findSlot, (hread.reads d s).exec_bind]
  cases hlba : dirLba m (fatNextCluster fatBuf) dirc s with
  | none => simp
  | some lba =>
      have hlt : s < 2 ^ 21 := by
        by_contra hge
        rw [hread.ends s (by omega)] at hlba
        exact absurd hlba (by simp)
      have hmod : (s + 1) % 2 ^ 32 = s + 1 := Nat.mod_eq_of_lt (by omega)
      simp only [applyWrites_nil, List.nil_append, hmod]
      cases scanSlots verdict (d lba) (List.range 16) <;> simp

/-- The outcome of a search that ends: the first slot taken, or none when no slot
is. -/
def SearchResult (slot : ℕ → Option Loc) (d : Disk) (verdict : RawDirEntry → Verdict) :
    Option Hit → Prop
  | none => ∀ n loc, ¬ FirstTake slot d verdict n loc
  | some hit => ∃ n loc, FirstTake slot d verdict n loc ∧ hit = ⟨n / 16, d loc.1, n % 16⟩

/-- Every slot of the first `s` sectors is passed over. -/
def SkippedTo (slot : ℕ → Option Loc) (d : Disk) (verdict : RawDirEntry → Verdict) (s : ℕ) :
    Prop :=
  ∀ k < 16 * s, ∀ loc, slot k = some loc → verdict (entryAt d loc) = .skip

/-- One more sector is passed over when the scan finds nothing in it. -/
theorem SkippedTo.succ {next : ℕ → ℕ} {s lba : ℕ}
    (h : SkippedTo (slotAt m next dirc) d verdict s)
    (hlba : dirLba m next dirc s = some lba)
    (hscan : ∀ i, i < 16 → verdict ((d lba).entry i) = .skip) :
    SkippedTo (slotAt m next dirc) d verdict (s + 1) := by
  intro k hk loc hloc
  by_cases hlt : k < 16 * s
  · exact h k hlt loc hloc
  · obtain ⟨hsec, hi⟩ := slotAt_eq_some_iff.mp hloc
    rw [show k / 16 = s by omega, hlba] at hsec
    injection hsec with hsec
    rw [entryAt, ← hsec, hi]
    exact hscan _ (by omega)

include hread in
theorem searchResult_of_dirEnd {s : ℕ}
    (h : SkippedTo (slotAt m (fatNextCluster fatBuf) dirc) d verdict s)
    (hend : dirLba m (fatNextCluster fatBuf) dirc s = none) :
    SearchResult (slotAt m (fatNextCluster fatBuf) dirc) d verdict none := by
  rintro n loc ⟨hloc, htake, -⟩
  by_cases hlt : n < 16 * s
  · rw [h n hlt loc hloc] at htake
    exact absurd htake (by decide)
  · have hnone := hread.noGap s (n / 16) hend (by omega)
    rw [(slotAt_eq_some_iff.mp hloc).1] at hnone
    exact absurd hnone (by simp)

/-- A slot that stops the search is behind every slot it could take. -/
theorem searchResult_of_stop {slot : ℕ → Option Loc} {n : ℕ} {loc : Loc}
    (hloc : slot n = some loc) (hstop : verdict (entryAt d loc) = .stop)
    (hbefore : ∀ k < n, ∀ loc', slot k = some loc' → verdict (entryAt d loc') = .skip) :
    SearchResult slot d verdict none := by
  rintro n' loc' ⟨hloc', htake, hbefore'⟩
  rcases Nat.lt_trichotomy n' n with hlt | rfl | hlt
  · rw [hbefore n' hlt loc' hloc'] at htake
    exact absurd htake (by decide)
  · rw [hloc] at hloc'
    injection hloc' with hloc'
    rw [← hloc', hstop] at htake
    exact absurd htake (by decide)
  · have hskip := hbefore' n hlt loc hloc
    rw [hstop] at hskip
    exact absurd hskip (by decide)

/-- The slot a scan points at, with everything before it passed over. -/
theorem before_of_scan {next : ℕ → ℕ} {s lba i : ℕ}
    (h : SkippedTo (slotAt m next dirc) d verdict s)
    (hlba : dirLba m next dirc s = some lba) (hi : i < 16)
    (hscan : ∀ j, j < i → verdict ((d lba).entry j) = .skip) :
    slotAt m next dirc (16 * s + i) = some (lba, i) ∧
      ∀ k < 16 * s + i, ∀ loc, slotAt m next dirc k = some loc →
        verdict (entryAt d loc) = .skip := by
  refine ⟨slotAt_eq_some_iff.mpr ⟨?_, ?_⟩, fun k hk loc hloc => ?_⟩
  · rw [show (16 * s + i) / 16 = s by omega]
    exact hlba
  · dsimp only
    omega
  · by_cases hlt : k < 16 * s
    · exact h k hlt loc hloc
    · obtain ⟨hsec, hmod⟩ := slotAt_eq_some_iff.mp hloc
      rw [show k / 16 = s by omega, hlba] at hsec
      injection hsec with hsec
      rw [entryAt, ← hsec, hmod]
      exact hscan _ (by omega)

include hread in
/-- The search from sector `s` on, when every slot before it is passed over, writes
nothing and ends with the right outcome. -/
theorem findSlot_result (fuel s : ℕ)
    (hbefore : SkippedTo (slotAt m (fatNextCluster fatBuf) dirc) d verdict s)
    {result : Option Hit} {writes : List (ℕ × Sector)}
    (h : (findSlot m dirc fatBuf verdict fuel s).Returns d result writes) :
    writes = [] ∧ SearchResult (slotAt m (fatNextCluster fatBuf) dirc) d verdict result := by
  induction fuel generalizing s with
  | zero =>
      injection h with h
      injection h
  | succ fuel ih =>
      rw [Returns, findSlot_succ_exec hread] at h
      cases hlba : dirLba m (fatNextCluster fatBuf) dirc s with
      | none =>
          rw [hlba] at h
          injection h with hresult hwrites
          injection hresult with hresult
          subst hresult hwrites
          exact ⟨rfl, searchResult_of_dirEnd hread verdict d hbefore hlba⟩
      | some lba =>
          rw [hlba] at h
          have hscan := scanSlots_range' verdict (d lba) 0 16
          rw [← List.range_eq_range'] at hscan
          dsimp only at h
          cases hcase : scanSlots verdict (d lba) (List.range 16) with
          | nothing =>
              rw [hcase] at h hscan
              exact ih (s + 1)
                (hbefore.succ verdict d hlba fun i hi => hscan i (Nat.zero_le _) (by omega)) h
          | ended =>
              rw [hcase] at h hscan
              injection h with hresult hwrites
              injection hresult with hresult
              subst hresult hwrites
              obtain ⟨i, -, hi, hstop, hskip⟩ := hscan
              obtain ⟨hloc, hall⟩ := before_of_scan verdict d hbefore hlba (by omega)
                fun j hj => hskip j (Nat.zero_le _) hj
              exact ⟨rfl, searchResult_of_stop verdict d hloc hstop hall⟩
          | hit i =>
              rw [hcase] at h hscan
              injection h with hresult hwrites
              injection hresult with hresult
              subst hresult hwrites
              obtain ⟨-, hi, htake, hskip⟩ := hscan
              obtain ⟨hloc, hall⟩ := before_of_scan verdict d hbefore hlba (by omega)
                fun j hj => hskip j (Nat.zero_le _) hj
              refine ⟨rfl, 16 * s + i, (lba, i), ⟨hloc, htake, hall⟩, ?_⟩
              rw [show (16 * s + i) / 16 = s by omega, show (16 * s + i) % 16 = i by omega]

include hread in
/-- The search ends once the fuel covers the directory. -/
theorem findSlot_total (fuel s : ℕ) (hs : s ≤ 2 ^ 21) (hfuel : 2 ^ 21 < fuel + s) :
    ∃ result writes, (findSlot m dirc fatBuf verdict fuel s).Returns d result writes := by
  induction fuel generalizing s with
  | zero => omega
  | succ fuel ih =>
      simp only [Returns, findSlot_succ_exec hread]
      cases hlba : dirLba m (fatNextCluster fatBuf) dirc s with
      | none => exact ⟨_, _, rfl⟩
      | some lba =>
          dsimp only
          cases scanSlots verdict (d lba) (List.range 16) with
          | nothing =>
              have hlt : s < 2 ^ 21 := by
                by_contra hge
                rw [hread.ends s (by omega)] at hlba
                exact absurd hlba (by simp)
              exact ih (s + 1) (by omega) (by omega)
          | ended => exact ⟨_, _, rfl⟩
          | hit i => exact ⟨_, _, rfl⟩

include hread in
/-- **The search finds the first slot its test takes.** -/
theorem Readable.findSlot_returns {fuel : ℕ} (hfuel : 2 ^ 21 < fuel) :
    ∃ result, (findSlot m dirc fatBuf verdict fuel 0).Returns d result [] ∧
      SearchResult (slotAt m (fatNextCluster fatBuf) dirc) d verdict result := by
  obtain ⟨result, writes, h⟩ := findSlot_total hread verdict d fuel 0 (Nat.zero_le _) hfuel
  obtain ⟨rfl, hresult⟩ := findSlot_result hread verdict d fuel 0 (fun k hk => by omega) h
  exact ⟨result, h, hresult⟩

end Search

/-- The search of a directory over a proper chain. -/
theorem findSlot_returns {m : Mount} (hu : m.Usable) {fatBuf : FatBuf} {dirc : ℕ}
    (hdir : DirOk m (fatNextCluster fatBuf) dirc) (verdict : RawDirEntry → Verdict) (d : Disk)
    {fuel : ℕ} (hfuel : 2 ^ 21 < fuel) :
    ∃ result, (findSlot m dirc fatBuf verdict fuel 0).Returns d result [] ∧
      SearchResult (slotAt m (fatNextCluster fatBuf) dirc) d verdict result :=
  (hdir.readable hu).findSlot_returns verdict d hfuel

end MasterOS.Fat
