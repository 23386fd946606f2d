/-
# The range of the page frame allocator

The bounds of the scan are byte numbers of `PMB`, rounded from the two addresses with
unsigned arithmetic: the lower one up, which may wrap at the top of memory, and the upper
one down, which wraps when there is not one whole byte below it. The allocator itself checks
neither the bounds against the size of `PMB` nor an address against the range.
-/

import MasterOS.Memory.Pmm

namespace MasterOS.Memory

/-- An address that was handed out is that of a page of the range. -/
structure PageOf (memLow memHigh : UInt32) (addr : ℕ) : Prop where
  aligned : addr % 0x1000 = 0
  low : memLow.toNat ≤ addr
  high : addr + 0x1000 ≤ memHigh.toNat

/-- Whatever the number of calls, no access leaves `PMB` and every address handed out is
that of a page of the range. -/
def StaysInRange (memLow memHigh : UInt32) : Prop :=
  ∀ n, ∃ results m, pmmAllocs n (pmmInit memLow memHigh) = some (results, m) ∧
    ∀ addr ∈ handedOut results, PageOf memLow memHigh addr

/-- There is nothing to scan, or the scan starts inside `PMB` and ends below the range's end. -/
def ScanFits (memLow memHigh : UInt32) : Prop :=
  (pmmInit memLow memHigh).stop ≤ (pmmInit memLow memHigh).start ∨
    memLow.toNat ≤ 0x1FFF8000 ∧
      (0x8000 ≤ memHigh.toNat ∨ memLow.toNat = 0 ∧ 0x2000 ≤ memHigh.toNat)

section Bounds

variable {memLow memHigh : UInt32}

/-- Where the scan starts, unless the rounding wraps. -/
theorem pmmInit_start (hlow : memLow.toNat ≤ 0xFFFFF000) :
    (pmmInit memLow memHigh).start = ((memLow.toNat + 0xFFF) / 0x1000 + 7) / 8 := by
  have hceil : ceilDiv memLow.toNat 0x1000 = (memLow.toNat + 0xFFF) / 0x1000 := by
    unfold ceilDiv
    omega
  unfold Pmm.start pmmInit
  dsimp only
  rw [hceil]
  split_ifs <;> omega

/-- Where the scan starts when the rounding wraps. -/
theorem pmmInit_start_wrapped (hlow : 0xFFFFF000 < memLow.toNat) :
    (pmmInit memLow memHigh).start = 0 := by
  have hceil : ceilDiv memLow.toNat 0x1000 = 0 := by
    have := memLow.toNat_lt
    unfold ceilDiv
    omega
  unfold Pmm.start pmmInit
  dsimp only
  rw [hceil]
  rfl

/-- Where the scan ends, when there is a whole byte below the end of the range. -/
theorem pmmInit_stop (hhigh : 0x8000 ≤ memHigh.toNat) :
    (pmmInit memLow memHigh).stop ≤ memHigh.toNat / 0x8000 := by
  unfold Pmm.stop pmmInit
  dsimp only
  split_ifs <;> omega

/-- With a byte to scan inside `PMB` the addresses are those of its first two frames. -/
theorem staysInRange_iff_of_start (hlt : (pmmInit memLow memHigh).start < pmbSize)
    (hsome : (pmmInit memLow memHigh).start < (pmmInit memLow memHigh).stop) :
    StaysInRange memLow memHigh ↔ ∀ k < 2, cycleAddr (pmmInit memLow memHigh) k ≠ 0 →
      PageOf memLow memHigh (cycleAddr (pmmInit memLow memHigh) k) := by
  have hallocs := pmmAllocs_cycled (m := pmmInit memLow memHigh) rfl rfl hlt hsome
  constructor
  · intro h k hk hne
    obtain ⟨results, m, hrun, hpages⟩ := h 2
    injection (hallocs 2).symm.trans hrun with hpair
    injection hpair with hresults
    refine hpages _ (List.mem_filter.mpr ⟨?_, decide_eq_true hne⟩)
    rw [← hresults]
    exact List.mem_map_of_mem (List.mem_range.mpr hk)
  · intro h n
    refine ⟨_, _, hallocs n, fun addr haddr => ?_⟩
    obtain ⟨hmem, hne⟩ := List.mem_filter.mp haddr
    obtain ⟨k, -, rfl⟩ := List.mem_map.mp hmem
    have hparity : cycleAddr (pmmInit memLow memHigh) k =
        cycleAddr (pmmInit memLow memHigh) (k % 2) := by
      rw [cycleAddr, cycleAddr, Nat.mod_mod]
    rw [hparity] at hne ⊢
    exact h _ (Nat.mod_lt k (by decide)) (of_decide_eq_true hne)

/-- A scan that starts behind `PMB` faults. -/
theorem not_staysInRange_of_start (hle : pmbSize ≤ (pmmInit memLow memHigh).start)
    (hsome : (pmmInit memLow memHigh).start < (pmmInit memLow memHigh).stop) :
    ¬ StaysInRange memLow memHigh := by
  intro h
  obtain ⟨results, m, hrun, -⟩ := h 1
  have hleft : (pmmInit memLow memHigh).stop - (pmmInit memLow memHigh).start =
      (pmmInit memLow memHigh).stop - (pmmInit memLow memHigh).start - 1 + 1 := by omega
  have hcall : pmmAllocPageFrame (pmmInit memLow memHigh) = none := by
    rw [pmmAllocPageFrame, hleft, allocFrom, if_neg (by omega)]
  rw [pmmAllocs, pmmAllocs, Option.bind_some, hcall] at hrun
  cases hrun

end Bounds

/-- **When the allocator stays in range.** For every range the calls stay inside `PMB` and
inside the range exactly when there is nothing to scan, or the range starts low enough for
`PMB` and ends high enough for the scan. -/
theorem staysInRange_iff {memLow memHigh : UInt32} (hrange : memLow < memHigh) :
    StaysInRange memLow memHigh ↔ ScanFits memLow memHigh := by
  have hlt : memLow.toNat < memHigh.toNat := UInt32.lt_iff_toNat_lt.mp hrange
  rcases Nat.lt_or_ge (pmmInit memLow memHigh).start (pmmInit memLow memHigh).stop
    with hsome | hnone
  · rw [ScanFits, or_iff_right (Nat.not_le.mpr hsome)]
    by_cases hwrap : 0xFFFFF000 < memLow.toNat
    · -- the lower bound wraps to frame 0, and the second call hands out frame 1
      have hstart := @pmmInit_start_wrapped memLow memHigh hwrap
      rw [staysInRange_iff_of_start (by rw [hstart]; decide) hsome]
      refine iff_of_false (fun h => ?_) (by omega)
      have hpage := h 1 (by decide)
      rw [cycleAddr, hstart] at hpage
      have := (hpage (by decide)).low
      omega
    · have hstart := @pmmInit_start memLow memHigh (Nat.not_lt.mp hwrap)
      by_cases hlow : memLow.toNat ≤ 0x1FFF8000
      · have hbyte : (pmmInit memLow memHigh).start < pmbSize := by
          rw [hstart, pmbSize]
          omega
        rw [staysInRange_iff_of_start hbyte hsome]
        by_cases hwhole : 0x8000 ≤ memHigh.toNat
        · refine iff_of_true (fun k hk _ => ?_) ⟨hlow, Or.inl hwhole⟩
          have hstop := @pmmInit_stop memLow memHigh hwhole
          rw [cycleAddr]
          refine ⟨by omega, ?_, ?_⟩ <;> omega
        · constructor
          · intro h
            by_cases hzero : memLow.toNat = 0
            · have hpage := h 1 (by decide)
              rw [cycleAddr, hstart, hzero] at hpage
              exact ⟨hlow, Or.inr ⟨hzero, (hpage (by decide)).high⟩⟩
            · -- the scan starts with the byte behind the range
              have hone : (pmmInit memLow memHigh).start = 1 := by omega
              have hpage := h 0 (by decide)
              rw [cycleAddr, hone] at hpage
              have := (hpage (by decide)).high
              omega
          · rintro ⟨-, hle | ⟨hzero, hroom⟩⟩ k hk hne
            · exact absurd hle hwhole
            · rw [cycleAddr, hstart, hzero] at hne ⊢
              refine ⟨by omega, by omega, ?_⟩
              omega
      · exact iff_of_false (not_staysInRange_of_start (by rw [hstart, pmbSize]; omega) hsome)
          fun h => hlow h.1
  · refine iff_of_true (fun n => ?_) (Or.inl hnone)
    refine ⟨_, _, pmmAllocs_of_stop_le hnone n, fun addr haddr => ?_⟩
    obtain ⟨hmem, hne⟩ := List.mem_filter.mp haddr
    exact absurd (List.eq_of_mem_replicate hmem) (of_decide_eq_true hne)

/-- The sixteen megabytes of a small machine. -/
theorem staysInRange_sixteen : StaysInRange 0x200000 0x1000000 :=
  (staysInRange_iff (by decide)).mpr (Or.inr ⟨by decide, Or.inl (by decide)⟩)

/-- From half a gigabyte on the first access is behind `PMB`, and in a range of one page the
first address is behind the range. -/
theorem not_staysInRange :
    pmmAllocs 1 (pmmInit 0x20000000 0x40000000) = none ∧
      (pmmAllocs 1 (pmmInit 0x1000 0x2000)).map Prod.fst = some [0x8000] ∧
      ¬ StaysInRange 0x20000000 0x40000000 ∧ ¬ StaysInRange 0x1000 0x2000 := by
  have hbehind : pmmAllocs 1 (pmmInit 0x20000000 0x40000000) = none := by decide +kernel
  have hhigh : (pmmAllocs 1 (pmmInit 0x1000 0x2000)).map Prod.fst = some [0x8000] := by
    decide +kernel
  refine ⟨hbehind, hhigh, fun h => ?_, fun h => ?_⟩
  · obtain ⟨results, m, hrun, -⟩ := h 1
    rw [hbehind] at hrun
    cases hrun
  · obtain ⟨results, m, hrun, hpages⟩ := h 1
    rw [hrun] at hhigh
    injection hhigh with hresults
    have hpage := hpages 0x8000 (by rw [show results = [0x8000] from hresults]; decide)
    exact absurd hpage.high (by decide)

end MasterOS.Memory
