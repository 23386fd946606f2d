/-
# The page frame allocator

The allocator keeps one bit for each page frame in the bytes of `PMB` and scans the bytes
of the managed range for one that is not full. When it takes a bit it stores that bit alone,
so the byte loses the bits it had: the first byte of the range never fills, and its first
two frames are handed out in turn.
-/

import Mathlib.Algebra.Group.Nat.Defs
import Mathlib.Data.List.Basic
import Mathlib.Logic.Function.Basic

namespace MasterOS.Memory

/-! ## The allocator -/

/-- The number of bytes of `PMB`. -/
def pmbSize : ℕ := 0x100000000 / 0x1000 / 8 / 8

/-- The statics of the allocator. The numbers are `uint32_t`. -/
@[ext]
structure Pmm where
  pageFrameMin : ℕ
  pageFrameMax : ℕ
  totalAlloc : ℕ
  pmb : ℕ → UInt8

/-- `CEIL_DIV(a, b)` on `uint32_t`. -/
def ceilDiv (a b : ℕ) : ℕ := (a + b + 2 ^ 32 - 1) % 2 ^ 32 / b

/-- `pmm_init`. -/
def pmmInit (memLow memHigh : UInt32) : Pmm where
  pageFrameMin := ceilDiv memLow.toNat 0x1000
  pageFrameMax := memHigh.toNat / 0x1000
  totalAlloc := 0
  pmb _ := 0

/-- `start` of `pmmAllocPageFrame`. -/
def Pmm.start (m : Pmm) : ℕ := m.pageFrameMin / 8 + if m.pageFrameMin % 8 ≠ 0 then 1 else 0

/-- `end` of `pmmAllocPageFrame`, on `uint32_t`. -/
def Pmm.stop (m : Pmm) : ℕ :=
  (m.pageFrameMax / 8 + 2 ^ 32 - if m.pageFrameMax % 8 ≠ 0 then 1 else 0) % 2 ^ 32

/-- The bit of a byte. -/
def bit (byte : UInt8) (i : ℕ) : Bool := byte.toNat.testBit i

/-- The inner loop: the first clear bit of a byte. -/
def clearBit (byte : UInt8) : Option ℕ := (List.range 8).find? fun i => !bit byte i

/-- The outer loop with `left` bytes still to scan, from byte `b` on: the address handed
out, or 0. An access behind `PMB` is a fault. -/
def allocFrom (m : Pmm) : (left b : ℕ) → Option (ℕ × Pmm)
  | 0, _ => some (0, m)
  | left + 1, b =>
      if b < pmbSize then
        if m.pmb b = 0xFF then allocFrom m left (b + 1)
        else match clearBit (m.pmb b) with
          | some i => some ((b * 8 + i) * 0x1000 % 2 ^ 32,
              { m with
                pmb := Function.update m.pmb b (UInt8.ofNat (2 ^ i))
                totalAlloc := (m.totalAlloc + 1) % 2 ^ 32 })
          | none => allocFrom m left (b + 1)
      else none

/-- `pmmAllocPageFrame`. -/
def pmmAllocPageFrame (m : Pmm) : Option (ℕ × Pmm) := allocFrom m (m.stop - m.start) m.start

/-- The results of `n` calls in order, and the allocator they leave. -/
def pmmAllocs : ℕ → Pmm → Option (List ℕ × Pmm)
  | 0, m => some ([], m)
  | n + 1, m => (pmmAllocs n m).bind fun before =>
      (pmmAllocPageFrame before.2).map fun call => (before.1 ++ [call.1], call.2)

/-! ## What the allocator is for -/

/-- The bit of a frame is set. -/
def Pmm.Marked (m : Pmm) (frame : ℕ) : Prop := bit (m.pmb (frame / 8)) (frame % 8) = true

/-- The addresses that calls which succeeded have handed out. -/
def handedOut (results : List ℕ) : List ℕ := results.filter (· ≠ 0)

/-- Every frame of the managed bytes was handed out. -/
def Pmm.Exhausted (m : Pmm) (results : List ℕ) : Prop :=
  ∀ frame, m.start * 8 ≤ frame → frame < m.stop * 8 → frame * 0x1000 ∈ handedOut results

/-- The books are right: the bits set are those of the frames handed out, `totalAlloc` is
their number, none was handed out twice, and a call returned 0 exactly when nothing was left. -/
structure Accounted (m : Pmm) (results : List ℕ) : Prop where
  marked : ∀ frame, m.Marked frame ↔ frame * 0x1000 ∈ handedOut results
  total : m.totalAlloc = (handedOut results).length
  nodup : (handedOut results).Nodup
  failed : ∀ k r, results[k]? = some r → (r = 0 ↔ m.Exhausted (results.take k))

/-! ## What the allocator does -/

/-- The state and the results after `n` calls, when there is a byte to manage: the first two
frames of that byte in turn, and the bit of the last. -/
def cycled (m : Pmm) (n : ℕ) : Pmm :=
  { m with
    pmb := if n = 0 then m.pmb
      else Function.update m.pmb m.start (UInt8.ofNat (2 ^ ((n - 1) % 2)))
    totalAlloc := n % 2 ^ 32 }

/-- The address that call `k` hands out. -/
def cycleAddr (m : Pmm) (k : ℕ) : ℕ := (m.start * 8 + k % 2) * 0x1000

@[simp]
theorem cycled_pageFrameMin (m : Pmm) (n : ℕ) : (cycled m n).pageFrameMin = m.pageFrameMin := rfl

@[simp]
theorem cycled_pageFrameMax (m : Pmm) (n : ℕ) : (cycled m n).pageFrameMax = m.pageFrameMax := rfl

@[simp]
theorem cycled_start (m : Pmm) (n : ℕ) : (cycled m n).start = m.start := rfl

@[simp]
theorem cycled_stop (m : Pmm) (n : ℕ) : (cycled m n).stop = m.stop := rfl

theorem cycled_zero {m : Pmm} (htotal : m.totalAlloc = 0) : cycled m 0 = m := by
  cases m with
  | mk low high total pmb =>
      have hzero : total = 0 := htotal
      rw [hzero, cycled, if_pos rfl, Nat.zero_mod]

section Calls

/-- One more call. -/
theorem pmmAllocPageFrame_cycled {m : Pmm} (hfresh : m.pmb = fun _ => 0) (hlt : m.start < pmbSize)
    (hsome : m.start < m.stop) (n : ℕ) :
    pmmAllocPageFrame (cycled m n) = some (cycleAddr m n, cycled m (n + 1)) := by
  have hleft : m.stop - m.start = (m.stop - m.start - 1) + 1 := by omega
  have hbyte : (cycled m n).pmb m.start = if n = 0 then 0 else UInt8.ofNat (2 ^ ((n - 1) % 2)) := by
    unfold cycled
    by_cases hn : n = 0
    · simp [hn, hfresh]
    · simp [hn]
  have hclear : (cycled m n).pmb m.start ≠ 0xFF ∧
      clearBit ((cycled m n).pmb m.start) = some (n % 2) := by
    rw [hbyte]
    by_cases hn : n = 0
    · rw [if_pos hn, hn]
      decide
    · rw [if_neg hn]
      rcases Nat.mod_two_eq_zero_or_one n with hpar | hpar
      · rw [show (n - 1) % 2 = 1 by omega, hpar]
        decide
      · rw [show (n - 1) % 2 = 0 by omega, hpar]
        decide
  have haddr : (m.start * 8 + n % 2) * 0x1000 % 2 ^ 32 = cycleAddr m n := by
    unfold pmbSize at hlt
    apply Nat.mod_eq_of_lt
    omega
  have hpmb : Function.update (cycled m n).pmb m.start (UInt8.ofNat (2 ^ (n % 2))) =
      (cycled m (n + 1)).pmb := by
    unfold cycled
    by_cases hn : n = 0
    · simp [hn]
    · simp [hn]
  have htotal : ((cycled m n).totalAlloc + 1) % 2 ^ 32 = (cycled m (n + 1)).totalAlloc :=
    Nat.mod_add_mod n (2 ^ 32) 1
  have hnext : ({ cycled m n with
      pmb := Function.update (cycled m n).pmb m.start (UInt8.ofNat (2 ^ (n % 2)))
      totalAlloc := ((cycled m n).totalAlloc + 1) % 2 ^ 32 } : Pmm) = cycled m (n + 1) := by
    apply Pmm.ext
    · rw [cycled_pageFrameMin, cycled_pageFrameMin]
    · rw [cycled_pageFrameMax, cycled_pageFrameMax]
    · exact htotal
    · exact hpmb
  rw [pmmAllocPageFrame, cycled_start, cycled_stop, hleft, allocFrom, if_pos hlt, if_neg hclear.1,
    hclear.2]
  dsimp only
  rw [haddr, hnext]

/-- The results of `n` calls. -/
theorem pmmAllocs_cycled {m : Pmm} (hfresh : m.pmb = fun _ => 0) (htotal : m.totalAlloc = 0)
    (hlt : m.start < pmbSize) (hsome : m.start < m.stop) (n : ℕ) :
    pmmAllocs n m = some ((List.range n).map (cycleAddr m), cycled m n) := by
  induction n with
  | zero =>
      rw [cycled_zero htotal]
      rfl
  | succ n ih =>
      rw [pmmAllocs, ih, Option.bind_some, pmmAllocPageFrame_cycled hfresh hlt hsome n,
        Option.map_some, List.range_succ, List.map_append, List.map_singleton]

/-- With no byte to manage every call fails. -/
theorem pmmAllocs_of_stop_le {m : Pmm} (hnone : m.stop ≤ m.start) (n : ℕ) :
    pmmAllocs n m = some (List.replicate n 0, m) := by
  induction n with
  | zero => rfl
  | succ n ih =>
      have hcall : pmmAllocPageFrame m = some (0, m) := by
        rw [pmmAllocPageFrame, Nat.sub_eq_zero_of_le hnone, allocFrom]
      rw [pmmAllocs, ih, Option.bind_some, hcall, Option.map_some, List.replicate_succ']

/-- The books are right as long as nothing was handed out. -/
theorem accounted_of_stop_le {m : Pmm} (hfresh : m.pmb = fun _ => 0) (htotal : m.totalAlloc = 0)
    (hnone : m.stop ≤ m.start) (n : ℕ) : Accounted m (List.replicate n 0) := by
  have hempty : handedOut (List.replicate n 0) = [] := by
    rw [handedOut, List.filter_eq_nil_iff]
    intro addr haddr
    simp [List.eq_of_mem_replicate haddr]
  refine ⟨fun frame => ?_, ?_, ?_, fun k r hr => ?_⟩
  · rw [hempty, Pmm.Marked, hfresh]
    exact iff_of_false (by simp [bit]) List.not_mem_nil
  · rw [hempty, htotal]
    rfl
  · rw [hempty]
    exact List.nodup_nil
  · have hzero : r = 0 := List.eq_of_mem_replicate (List.mem_of_getElem? hr)
    refine iff_of_true hzero fun frame hlow hhigh => ?_
    omega

/-- The books are wrong from the second call on, and from the first when that hands out
frame 0. -/
theorem accounted_cycled_iff {m : Pmm} (hfresh : m.pmb = fun _ => 0)
    (hsome : m.start < m.stop) (n : ℕ) :
    Accounted (cycled m n) ((List.range n).map (cycleAddr m)) ↔
      n = 0 ∨ n = 1 ∧ m.start ≠ 0 := by
  have hnotExhausted : ¬ (cycled m n).Exhausted [] := fun h => by
    have hframe := h (m.start * 8) (Nat.le_refl _) (by rw [cycled_stop]; omega)
    cases hframe
  constructor
  · intro h
    by_contra hbad
    push Not at hbad
    obtain ⟨hpos, hone⟩ := hbad
    by_cases hstart : m.start = 0
    · -- the first call hands out frame 0, whose address reads as a failure
      have hfirst : ((List.range n).map (cycleAddr m))[0]? = some 0 := by
        rw [List.getElem?_map, List.getElem?_range (Nat.pos_of_ne_zero hpos), Option.map_some,
          cycleAddr, hstart]
      exact hnotExhausted ((h.failed 0 0 hfirst).mp rfl)
    · -- the last call but one has lost its bit
      have htwo : 2 ≤ n := by
        rcases Nat.lt_or_ge n 2 with hlt | hge
        · exact absurd (hone (by omega)) hstart
        · exact hge
      have hmem : (m.start * 8 + n % 2) * 0x1000 ∈
          handedOut ((List.range n).map (cycleAddr m)) := by
        rw [handedOut, List.mem_filter, List.mem_map]
        refine ⟨⟨n - 2, List.mem_range.mpr (by omega), ?_⟩, by simp; omega⟩
        rw [cycleAddr, show (n - 2) % 2 = n % 2 by omega]
      have hmarked := (h.marked (m.start * 8 + n % 2)).mpr hmem
      rw [Pmm.Marked, show (m.start * 8 + n % 2) / 8 = m.start by omega,
        show (m.start * 8 + n % 2) % 8 = n % 2 by omega, cycled] at hmarked
      dsimp only at hmarked
      rw [if_neg hpos, Function.update_self] at hmarked
      rcases Nat.mod_two_eq_zero_or_one n with hpar | hpar
      · rw [hpar, show (n - 1) % 2 = 1 by omega] at hmarked
        exact absurd hmarked (by decide)
      · rw [hpar, show (n - 1) % 2 = 0 by omega] at hmarked
        exact absurd hmarked (by decide)
  · rintro (rfl | ⟨rfl, hstart⟩)
    · refine ⟨fun frame => ?_, Nat.zero_mod _, List.nodup_nil, fun k r hr => ?_⟩
      · rw [Pmm.Marked, cycled]
        dsimp only
        rw [if_pos rfl, hfresh]
        exact iff_of_false (by simp [bit]) List.not_mem_nil
      · cases hr
    · have hresults : (List.range 1).map (cycleAddr m) = [m.start * 8 * 0x1000] := rfl
      have haddr : m.start * 8 * 0x1000 ≠ 0 := by omega
      have hout : handedOut [m.start * 8 * 0x1000] = [m.start * 8 * 0x1000] :=
        List.filter_eq_self.mpr fun addr hmem => by
          rw [List.mem_singleton.mp hmem]
          exact decide_eq_true haddr
      have hpmb : (cycled m 1).pmb = Function.update (fun _ => 0) m.start 1 := by
        rw [← hfresh]
        rfl
      rw [hresults]
      refine ⟨fun frame => ?_, ?_, ?_, fun k r hr => ?_⟩
      · rw [hout, List.mem_singleton, Pmm.Marked, hpmb]
        by_cases hbyte : frame / 8 = m.start
        · rw [hbyte, Function.update_self]
          have hlow : frame % 8 < 8 := Nat.mod_lt _ (by decide)
          have hbit : ∀ i < 8, bit 1 i = true ↔ i = 0 := by decide +kernel
          rw [hbit _ hlow]
          omega
        · rw [Function.update_of_ne hbyte]
          refine iff_of_false (by simp [bit]) fun heq => hbyte ?_
          omega
      · rw [hout]
        rfl
      · rw [hout]
        exact List.pairwise_singleton _ _
      · cases k with
        | zero =>
            obtain rfl := Option.some.inj hr
            exact iff_of_false haddr hnotExhausted
        | succ k => cases hr

end Calls

/-- **When the books are right.** After `n` calls the allocator's books are right exactly when
there is no byte to manage, or nothing was asked for, or one frame was and it is not frame 0. -/
theorem accounted_iff {memLow memHigh : UInt32}
    (hroom : ∀ b, (pmmInit memLow memHigh).start ≤ b → b < (pmmInit memLow memHigh).stop →
      b < pmbSize) (n : ℕ) :
    (∃ results m, pmmAllocs n (pmmInit memLow memHigh) = some (results, m) ∧
        Accounted m results) ↔
      (pmmInit memLow memHigh).stop ≤ (pmmInit memLow memHigh).start ∨ n = 0 ∨
        n = 1 ∧ (pmmInit memLow memHigh).start ≠ 0 := by
  rcases Nat.lt_or_ge (pmmInit memLow memHigh).start (pmmInit memLow memHigh).stop with hsome | hnone
  · have hallocs := pmmAllocs_cycled (m := pmmInit memLow memHigh) rfl rfl
      (hroom _ (Nat.le_refl _) hsome) hsome n
    rw [or_iff_right (Nat.not_le.mpr hsome), ← accounted_cycled_iff rfl hsome n]
    constructor
    · rintro ⟨results, m, hrun, haccounted⟩
      injection hallocs.symm.trans hrun with hpair
      injection hpair with hresults hm
      rw [hresults, hm]
      exact haccounted
    · exact fun haccounted => ⟨_, _, hallocs, haccounted⟩
  · refine iff_of_true ?_ (Or.inl hnone)
    exact ⟨_, _, pmmAllocs_of_stop_le hnone n, accounted_of_stop_le rfl rfl hnone n⟩

/-- Sixteen megabytes behind the second: the first frame is handed out and accounted for. -/
theorem accounted_once : ∃ results m,
    pmmAllocs 1 (pmmInit 0x200000 0x1000000) = some (results, m) ∧ Accounted m results :=
  (@accounted_iff 0x200000 0x1000000
    (fun _ _ h => Nat.lt_of_lt_of_le h (by decide +kernel)) 1).mpr
    (Or.inr (Or.inr ⟨rfl, by decide +kernel⟩))

/-- After the second call the bit of the first frame is clear again. -/
theorem not_accounted_twice :
    (pmmInit 0x200000 0x1000000).stop ≤ pmbSize ∧
      ∃ results m, pmmAllocs 2 (pmmInit 0x200000 0x1000000) = some (results, m) ∧
        ¬ Accounted m results := by
  have hrun : (pmmAllocs 2 (pmmInit 0x200000 0x1000000)).map
      (fun r => (r.1, bit (r.2.pmb 64) 0)) = some ([0x200000, 0x201000], false) := by
    decide +kernel
  obtain ⟨⟨results, m⟩, hallocs, hend⟩ := Option.map_eq_some_iff.mp hrun
  injection hend with hresults hbit
  refine ⟨by decide +kernel, results, m, hallocs, fun h => ?_⟩
  have hmem : 512 * 0x1000 ∈ handedOut results := by
    rw [show results = [0x200000, 0x201000] from hresults]
    decide
  have hmarked : bit (m.pmb 64) 0 = true := (h.marked 512).mpr hmem
  rw [show bit (m.pmb 64) 0 = false from hbit] at hmarked
  cases hmarked

end MasterOS.Memory
