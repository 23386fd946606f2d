/-
# The packed 12-bit allocation table

Two FAT12 entries share three bytes. `fatNextCluster` and `fatSetCluster` pick
the nibbles apart; through them the table behaves as an array of 12-bit values,
which is all that the rest of the development uses.
-/

import MasterOS.Fat.Layout
import MasterOS.Math.Cells
import Mathlib.Data.Nat.Bitwise
import Mathlib.Data.List.Nodup

namespace MasterOS.Fat

open MasterOS.Math (IsArray)

/-- `fat_buf`, the driver's copy of the table. The array has `18 * 512` bytes; an
access past its end is a fault of the caller. -/
abbrev FatBuf : Type := ℕ → UInt8

/-- `fat_next_cluster`: the entry of a cluster. -/
def fatNextCluster (fatBuf : FatBuf) (cluster : ℕ) : ℕ :=
  let offset := cluster + cluster / 2
  let val := (fatBuf offset).toNat ||| ((fatBuf (offset + 1)).toNat <<< 8)
  if cluster &&& 1 ≠ 0 then val >>> 4 else val &&& 0x0FFF

/-- `fat_set_cluster`: overwrite the entry of a cluster. -/
def fatSetCluster (fatBuf : FatBuf) (cluster value : ℕ) : FatBuf :=
  let offset := cluster + cluster / 2
  if cluster &&& 1 ≠ 0 then
    let fatBuf := Function.update fatBuf offset
      (UInt8.ofNat (((fatBuf offset).toNat &&& 0x0F) ||| ((value &&& 0x0F) <<< 4)))
    Function.update fatBuf (offset + 1) (UInt8.ofNat ((value >>> 4) &&& 0xFF))
  else
    let fatBuf := Function.update fatBuf offset (UInt8.ofNat (value &&& 0xFF))
    Function.update fatBuf (offset + 1)
      (UInt8.ofNat (((fatBuf (offset + 1)).toNat &&& 0xF0) ||| ((value >>> 8) &&& 0x0F)))

/-- `fat_find_free_cluster`: the first cluster below `total_clusters + 2` whose
entry is zero, or 0. -/
def fatFindFreeCluster (fatBuf : FatBuf) (totalClusters : ℕ) : ℕ :=
  ((List.range' 2 totalClusters).find? fun c => fatNextCluster fatBuf c == 0).getD 0

/-! ## Entries as numbers -/

theorem byte_or_shift (a b : UInt8) :
    a.toNat ||| (b.toNat <<< 8) = a.toNat + 256 * b.toNat := by
  have ha := a.toNat_lt
  rw [Nat.or_comm, ← Nat.shiftLeft_add_eq_or_of_lt (by simpa using ha), Nat.shiftLeft_eq]
  omega

theorem odd_iff_and_one (c : ℕ) : c &&& 1 ≠ 0 ↔ c % 2 = 1 := by
  rw [Nat.and_one_is_mod]
  omega

/-- The entry of an odd cluster: a high nibble and the byte after it. -/
theorem fatNextCluster_odd (fatBuf : FatBuf) {c : ℕ} (hc : c % 2 = 1) :
    fatNextCluster fatBuf c =
      (fatBuf (c + c / 2)).toNat / 16 + 16 * (fatBuf (c + c / 2 + 1)).toNat := by
  simp only [fatNextCluster, if_pos ((odd_iff_and_one c).mpr hc), byte_or_shift,
    Nat.shiftRight_eq_div_pow]
  omega

/-- The entry of an even cluster: a byte and the low nibble after it. -/
theorem fatNextCluster_even (fatBuf : FatBuf) {c : ℕ} (hc : c % 2 = 0) :
    fatNextCluster fatBuf c =
      (fatBuf (c + c / 2)).toNat + 256 * ((fatBuf (c + c / 2 + 1)).toNat % 16) := by
  have h0 := (fatBuf (c + c / 2)).toNat_lt
  have hodd : ¬ c &&& 1 ≠ 0 := by rw [odd_iff_and_one]; omega
  simp only [fatNextCluster, if_neg hodd, byte_or_shift]
  rw [show (0x0FFF : ℕ) = 2 ^ 12 - 1 from rfl, Nat.and_two_pow_sub_one_eq_mod]
  omega

theorem fatNextCluster_lt (fatBuf : FatBuf) (c : ℕ) : fatNextCluster fatBuf c < 4096 := by
  have h0 := (fatBuf (c + c / 2)).toNat_lt
  have h1 := (fatBuf (c + c / 2 + 1)).toNat_lt
  rcases Nat.mod_two_eq_zero_or_one c with hc | hc
  · rw [fatNextCluster_even fatBuf hc]; omega
  · rw [fatNextCluster_odd fatBuf hc]; omega

/-- An entry depends on its two bytes only. -/
theorem fatNextCluster_congr {b b' : FatBuf} {c : ℕ} (h0 : b' (c + c / 2) = b (c + c / 2))
    (h1 : b' (c + c / 2 + 1) = b (c + c / 2 + 1)) :
    fatNextCluster b' c = fatNextCluster b c := by
  simp only [fatNextCluster, h0, h1]

/-- If two tables agree on an entry, so does any table each of whose bytes comes
from one of the two. The neighbours' nibbles may come from either. -/
theorem fatNextCluster_mixed {b b' mix : FatBuf} {c : ℕ}
    (same : fatNextCluster b c = fatNextCluster b' c)
    (h0 : mix (c + c / 2) = b (c + c / 2) ∨ mix (c + c / 2) = b' (c + c / 2))
    (h1 : mix (c + c / 2 + 1) = b (c + c / 2 + 1) ∨ mix (c + c / 2 + 1) = b' (c + c / 2 + 1)) :
    fatNextCluster mix c = fatNextCluster b c := by
  have hb0 := (b (c + c / 2)).toNat_lt
  have hb0' := (b' (c + c / 2)).toNat_lt
  rcases Nat.mod_two_eq_zero_or_one c with hc | hc
  · rw [fatNextCluster_even b hc, fatNextCluster_even b' hc] at same
    rw [fatNextCluster_even mix hc, fatNextCluster_even b hc]
    rcases h0 with h0 | h0 <;> rcases h1 with h1 | h1 <;> rw [h0, h1] <;> omega
  · rw [fatNextCluster_odd b hc, fatNextCluster_odd b' hc] at same
    rw [fatNextCluster_odd mix hc, fatNextCluster_odd b hc]
    rcases h0 with h0 | h0 <;> rcases h1 with h1 | h1 <;> rw [h0, h1] <;> omega

/-! ## Setting an entry -/

theorem nibble_low (a v : ℕ) :
    ((a &&& 0x0F) ||| ((v &&& 0x0F) <<< 4)) = a % 16 + 16 * (v % 16) := by
  have hlt : a % 2 ^ 4 < 2 ^ 4 := Nat.mod_lt _ (by decide)
  rw [show (0x0F : ℕ) = 2 ^ 4 - 1 from rfl, Nat.and_two_pow_sub_one_eq_mod,
    Nat.and_two_pow_sub_one_eq_mod, Nat.or_comm, ← Nat.shiftLeft_add_eq_or_of_lt hlt,
    Nat.shiftLeft_eq]
  omega

theorem nibble_high {a : ℕ} (ha : a < 256) (v : ℕ) :
    ((a &&& 0xF0) ||| ((v >>> 8) &&& 0x0F)) = 16 * (a / 16) + v / 256 % 16 := by
  have hmask : a &&& 0xF0 = (a / 16) <<< 4 := by
    interval_cases a <;> rfl
  have hlt : v / 256 % 16 < 2 ^ 4 := Nat.mod_lt _ (by decide)
  have hlow : (v >>> 8) &&& 0x0F = v / 256 % 16 := by
    rw [show (0x0F : ℕ) = 2 ^ 4 - 1 from rfl, Nat.and_two_pow_sub_one_eq_mod,
      Nat.shiftRight_eq_div_pow]
  rw [hmask, hlow, ← Nat.shiftLeft_add_eq_or_of_lt hlt, Nat.shiftLeft_eq]
  omega

/-- The two bytes `fatSetCluster` writes, and no others. -/
theorem fatSetCluster_byte (fatBuf : FatBuf) (c v i : ℕ) :
    (fatSetCluster fatBuf c v i).toNat =
      if i = c + c / 2 then
        if c % 2 = 1 then (fatBuf i).toNat % 16 + 16 * (v % 16) else v % 256
      else if i = c + c / 2 + 1 then
        if c % 2 = 1 then v / 16 % 256 else 16 * ((fatBuf i).toNat / 16) + v / 256 % 16
      else (fatBuf i).toNat := by
  have hand (x : ℕ) : x &&& 0xFF = x % 256 := by
    rw [show (0xFF : ℕ) = 2 ^ 8 - 1 from rfl, Nat.and_two_pow_sub_one_eq_mod]
  have hlt := (fatBuf (c + c / 2 + 1)).toNat_lt
  by_cases hodd : c % 2 = 1
  · simp only [fatSetCluster, if_pos ((odd_iff_and_one c).mpr hodd), if_pos hodd,
      Function.update_apply, nibble_low, hand, Nat.shiftRight_eq_div_pow]
    by_cases h1 : i = c + c / 2 + 1
    · subst h1
      simp only [if_pos, show ¬ c + c / 2 + 1 = c + c / 2 by omega, if_false,
        UInt8.toNat_ofNat']
      omega
    · by_cases h0 : i = c + c / 2
      · subst h0
        simp only [if_neg h1, if_pos, UInt8.toNat_ofNat']
        omega
      · simp only [if_neg h1, if_neg h0]
  · have heven : ¬ c &&& 1 ≠ 0 := by rw [odd_iff_and_one]; exact hodd
    have hother : Function.update fatBuf (c + c / 2) (UInt8.ofNat (v % 256)) (c + c / 2 + 1) =
        fatBuf (c + c / 2 + 1) := Function.update_of_ne (by omega) _ _
    simp only [fatSetCluster, if_neg heven, if_neg hodd, hand, hother, nibble_high hlt]
    by_cases h1 : i = c + c / 2 + 1
    · subst h1
      simp only [Function.update_self, if_pos, show ¬ c + c / 2 + 1 = c + c / 2 by omega,
        if_false, UInt8.toNat_ofNat']
      omega
    · rw [Function.update_of_ne h1]
      by_cases h0 : i = c + c / 2
      · subst h0
        simp only [Function.update_self, if_pos, UInt8.toNat_ofNat']
        omega
      · rw [Function.update_of_ne h0, if_neg h0, if_neg h1]

/-- Reading the entry that was set. -/
@[simp]
theorem fatNextCluster_fatSetCluster_self (fatBuf : FatBuf) (c v : ℕ) :
    fatNextCluster (fatSetCluster fatBuf c v) c = v % 4096 := by
  have h0 := fatSetCluster_byte fatBuf c v (c + c / 2)
  have h1 := fatSetCluster_byte fatBuf c v (c + c / 2 + 1)
  rw [if_pos rfl] at h0
  rw [if_neg (by omega), if_pos rfl] at h1
  rcases Nat.mod_two_eq_zero_or_one c with hc | hc
  · rw [fatNextCluster_even _ hc, h0, h1, if_neg (by omega), if_neg (by omega)]
    omega
  · rw [fatNextCluster_odd _ hc, h0, h1, if_pos hc, if_pos hc]
    omega

/-- Setting one entry leaves every other entry alone, the neighbour that shares a
byte included. -/
theorem fatNextCluster_fatSetCluster_of_ne (fatBuf : FatBuf) {c d : ℕ} (v : ℕ) (hd : d ≠ c) :
    fatNextCluster (fatSetCluster fatBuf c v) d = fatNextCluster fatBuf d := by
  have h0 := fatSetCluster_byte fatBuf c v (d + d / 2)
  have h1 := fatSetCluster_byte fatBuf c v (d + d / 2 + 1)
  rcases Nat.mod_two_eq_zero_or_one d with hdp | hdp
  · rw [fatNextCluster_even _ hdp, fatNextCluster_even _ hdp]
    split_ifs at h0 h1 <;> omega
  · rw [fatNextCluster_odd _ hdp, fatNextCluster_odd _ hdp]
    split_ifs at h0 h1 <;> omega

theorem fatNextCluster_fatSetCluster (fatBuf : FatBuf) (c d v : ℕ) :
    fatNextCluster (fatSetCluster fatBuf c v) d =
      if d = c then v % 4096 else fatNextCluster fatBuf d := by
  split_ifs with h
  · subst h
    exact fatNextCluster_fatSetCluster_self fatBuf d v
  · exact fatNextCluster_fatSetCluster_of_ne fatBuf v h

/-- Only the two bytes of the entry can change. -/
theorem fatSetCluster_of_ne (fatBuf : FatBuf) {c v i : ℕ} (h0 : i ≠ c + c / 2)
    (h1 : i ≠ c + c / 2 + 1) : fatSetCluster fatBuf c v i = fatBuf i := by
  apply UInt8.toNat_inj.mp
  rw [fatSetCluster_byte, if_neg h0, if_neg h1]

/-- Setting an entry treats every byte by itself. -/
theorem fatSetCluster_congr {b b' : FatBuf} (c v : ℕ) {i : ℕ} (h : b' i = b i) :
    fatSetCluster b' c v i = fatSetCluster b c v i := by
  apply UInt8.toNat_inj.mp
  rw [fatSetCluster_byte, fatSetCluster_byte, h]

/-- Setting an entry to its own value changes no byte. -/
theorem fatSetCluster_own (fatBuf : FatBuf) (c : ℕ) :
    fatSetCluster fatBuf c (fatNextCluster fatBuf c) = fatBuf := by
  funext i
  apply UInt8.toNat_inj.mp
  have h0 := (fatBuf (c + c / 2)).toNat_lt
  have h1 := (fatBuf (c + c / 2 + 1)).toNat_lt
  rw [fatSetCluster_byte]
  rcases Nat.mod_two_eq_zero_or_one c with hc | hc
  · rw [fatNextCluster_even fatBuf hc]
    split_ifs <;> subst_vars <;> omega
  · rw [fatNextCluster_odd fatBuf hc]
    split_ifs <;> subst_vars <;> omega

/-- Of two settings of one entry the second one stays. -/
theorem fatSetCluster_fatSetCluster (fatBuf : FatBuf) (c v w : ℕ) :
    fatSetCluster (fatSetCluster fatBuf c v) c w = fatSetCluster fatBuf c w := by
  funext i
  apply UInt8.toNat_inj.mp
  rw [fatSetCluster_byte, fatSetCluster_byte, fatSetCluster_byte]
  split_ifs <;> omega

/-- Settings of two entries commute, also where the entries share a byte. -/
theorem fatSetCluster_comm (fatBuf : FatBuf) {c d : ℕ} (hne : d ≠ c) (v w : ℕ) :
    fatSetCluster (fatSetCluster fatBuf c v) d w =
      fatSetCluster (fatSetCluster fatBuf d w) c v := by
  funext i
  apply UInt8.toNat_inj.mp
  rw [fatSetCluster_byte, fatSetCluster_byte, fatSetCluster_byte, fatSetCluster_byte]
  split_ifs <;> omega

/-- The packed entries satisfy the laws of cells of twelve bits. -/
theorem fatSetCluster_isArray : IsArray fatNextCluster fatSetCluster (· % 4096) where
  get_set := fatNextCluster_fatSetCluster_self
  get_set_of_ne fatBuf _ _ v h := fatNextCluster_fatSetCluster_of_ne fatBuf v h
  set_get := fatSetCluster_own
  set_set := fatSetCluster_fatSetCluster
  set_comm fatBuf _ _ v w h := fatSetCluster_comm fatBuf h v w

/-- **The packed table is an array.** The accessors satisfy the laws of cells, setting an
entry can change its own two bytes only, and these are bytes of `fat_buf` for all clusters
below 6144. -/
theorem packedTable_isArray : IsArray fatNextCluster fatSetCluster (· % 4096) ∧
    (∀ fatBuf c v i, i ≠ c + c / 2 → i ≠ c + c / 2 + 1 →
      fatSetCluster fatBuf c v i = fatBuf i) ∧
    ∀ c < 6144, c + c / 2 + 1 < 18 * 512 := by
  refine ⟨fatSetCluster_isArray, fun fatBuf c v i h0 h1 => fatSetCluster_of_ne fatBuf h0 h1, ?_⟩
  intro c hc
  omega

/-! ## Searching for a free entry -/

/-- What the search says when it finds a cluster: the first free one. -/
theorem fatFindFreeCluster_pos {fatBuf : FatBuf} {total c : ℕ}
    (h : fatFindFreeCluster fatBuf total = c) (hc : c ≠ 0) :
    2 ≤ c ∧ c < total + 2 ∧ fatNextCluster fatBuf c = 0 ∧
      ∀ d, 2 ≤ d → d < c → fatNextCluster fatBuf d ≠ 0 := by
  unfold fatFindFreeCluster at h
  cases hfind : (List.range' 2 total).find? fun c => fatNextCluster fatBuf c == 0 with
  | none => rw [hfind] at h; exact absurd h.symm hc
  | some x =>
      rw [hfind] at h
      have hx : x = c := h
      subst hx
      rw [List.find?_range'_eq_some] at hfind
      obtain ⟨hzero, hmem, hbefore⟩ := hfind
      rw [List.mem_range'_1] at hmem
      refine ⟨hmem.1, by omega, by simpa using hzero, fun d hd hlt => ?_⟩
      simpa using hbefore d hd hlt

/-- What the search says when it finds none. -/
theorem fatFindFreeCluster_eq_zero_iff {fatBuf : FatBuf} {total : ℕ} :
    fatFindFreeCluster fatBuf total = 0 ↔
      ∀ d, 2 ≤ d → d < total + 2 → fatNextCluster fatBuf d ≠ 0 := by
  constructor
  · intro h d hd hlt hzero
    unfold fatFindFreeCluster at h
    cases hfind : (List.range' 2 total).find? fun c => fatNextCluster fatBuf c == 0 with
    | none =>
        rw [List.find?_eq_none] at hfind
        have hd' := hfind d (List.mem_range'_1.mpr ⟨hd, by omega⟩)
        simp [hzero] at hd'
    | some x =>
        rw [hfind] at h
        have hmem := List.mem_of_find?_eq_some hfind
        rw [List.mem_range'_1] at hmem
        have hx : x = 0 := h
        omega
  · intro h
    by_contra hne
    obtain ⟨h2, hlt, hzero, -⟩ := fatFindFreeCluster_pos rfl hne
    exact h _ h2 hlt hzero

/-- A free cluster in range bounds what the search returns. -/
theorem fatFindFreeCluster_le {fatBuf : FatBuf} {total x : ℕ} (h2 : 2 ≤ x)
    (hlt : x < total + 2) (hfree : fatNextCluster fatBuf x = 0) :
    fatFindFreeCluster fatBuf total ≠ 0 ∧ fatFindFreeCluster fatBuf total ≤ x := by
  have hne : fatFindFreeCluster fatBuf total ≠ 0 := fun h0 =>
    fatFindFreeCluster_eq_zero_iff.mp h0 x h2 hlt hfree
  refine ⟨hne, ?_⟩
  by_contra hlt'
  exact (fatFindFreeCluster_pos rfl hne).2.2.2 x h2 (by omega) hfree

end MasterOS.Fat
