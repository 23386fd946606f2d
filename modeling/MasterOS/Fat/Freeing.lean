/-
# Freeing a chain in any table

The loop of `fat_delete` and `fat_rmdir` walks a chain and clears its entries as it goes. It
is said here what it does to a table of any content, cycles and cross-links included: each
round either ends the walk or clears an entry that was not clear, so the loop ends, and the
entries it clears are those of the clusters that the walk meets in the table as it was.
-/

import MasterOS.Fat.Steps
import Mathlib.Order.Interval.Finset.Nat

namespace MasterOS.Fat

open MasterOS.Device MasterOS.Device.Prog MasterOS.Math

/-- The clusters the freeing loop goes on for. -/
def Walked (c : ℕ) : Prop := 2 ≤ c ∧ c ≤ 0xFEF

instance : DecidablePred Walked := fun c => by unfold Walked; infer_instance

/-- The entry of such a cluster lies in the buffer. -/
theorem Walked.inBuf {c : ℕ} (h : Walked c) : InBuf c := by
  have hle := h.2
  unfold InBuf
  omega

/-- The clusters the loop may still clear. -/
def uncleared (fatBuf : FatBuf) : Finset ℕ :=
  (Finset.Icc 2 0xFEF).filter fun c => fatNextCluster fatBuf c ≠ 0

theorem mem_uncleared {fatBuf : FatBuf} {c : ℕ} :
    c ∈ uncleared fatBuf ↔ Walked c ∧ fatNextCluster fatBuf c ≠ 0 := by
  rw [uncleared, Finset.mem_filter, Finset.mem_Icc]
  rfl

theorem card_uncleared_le (fatBuf : FatBuf) : (uncleared fatBuf).card ≤ 0xFEE := by
  have hle := Finset.card_filter_le (Finset.Icc 2 0xFEF) fun c => fatNextCluster fatBuf c ≠ 0
  rwa [Nat.card_Icc] at hle

theorem fatNextCluster_clear (fatBuf : FatBuf) (c : ℕ) :
    fatNextCluster (fatSetCluster fatBuf c 0x000) =
      Function.update (fatNextCluster fatBuf) c 0 := by
  funext x
  rw [fatNextCluster_fatSetCluster, Function.update_apply]

theorem uncleared_clear (fatBuf : FatBuf) (c : ℕ) :
    uncleared (fatSetCluster fatBuf c 0x000) = (uncleared fatBuf).erase c := by
  ext x
  rw [Finset.mem_erase, mem_uncleared, mem_uncleared, fatNextCluster_clear,
    Function.update_apply]
  split_ifs with hx
  · simp [hx]
  · simp [hx]

/-- One round of the loop. -/
theorem freeChain_succ (fuel : ℕ) (fatBuf : FatBuf) {c : ℕ} (h : Walked c) :
    freeChain (fuel + 1) fatBuf c =
      freeChain fuel (fatSetCluster fatBuf c 0x000) (fatNextCluster fatBuf c) := by
  rw [freeChain, if_pos (show 2 ≤ c ∧ c ≤ 0xFEF from h), loadEntry, if_pos h.inBuf, ret_bind]

theorem freeChain_of_not_walked (fuel : ℕ) (fatBuf : FatBuf) {c : ℕ} (h : ¬ Walked c) :
    freeChain (fuel + 1) fatBuf c = .ret fatBuf := by
  rw [freeChain, if_neg (show ¬ (2 ≤ c ∧ c ≤ 0xFEF) from h)]

/-- The table after the loop: clear at the clusters the walk met, and as it was elsewhere. -/
structure Freed (fatBuf : FatBuf) (first : ℕ) (fatBuf' : FatBuf) : Prop where
  cleared : ∀ x, Visits (fatNextCluster fatBuf) Walked first x → fatNextCluster fatBuf' x = 0
  kept : ∀ x, ¬ Visits (fatNextCluster fatBuf) Walked first x →
    fatNextCluster fatBuf' x = fatNextCluster fatBuf x
  outside : ∀ o, 18 * 512 ≤ o → fatBuf' o = fatBuf o

theorem freed_of_not_walked {fatBuf : FatBuf} {c : ℕ} (h : ¬ Walked c) :
    Freed fatBuf c fatBuf where
  cleared := by
    intro x hx
    cases hx with
    | here hok => exact absurd hok h
    | there hok _ => exact absurd hok h
  kept := fun _ _ => rfl
  outside := fun _ _ => rfl

theorem not_walked_zero : ¬ Walked 0 := by decide

/-- What the walk from the next cluster clears once `c` is clear, and `c`, are what the walk
from `c` meets. -/
theorem Freed.step {fatBuf fatBuf' : FatBuf} {c : ℕ} (h : Walked c)
    (hrest : Freed (fatSetCluster fatBuf c 0x000) (fatNextCluster fatBuf c) fatBuf') :
    Freed fatBuf c fatBuf' := by
  obtain ⟨hcleared, hkept, houtside⟩ := hrest
  rw [fatNextCluster_clear] at hcleared hkept
  have hvisits {x : ℕ} : Visits (fatNextCluster fatBuf) Walked c x ↔
      x = c ∨ Visits (Function.update (fatNextCluster fatBuf) c 0) Walked
        (fatNextCluster fatBuf c) x :=
    visits_iff_update not_walked_zero h
  refine ⟨fun x hx => ?_, fun x hx => ?_, fun o ho => ?_⟩
  · by_cases hlater : Visits (Function.update (fatNextCluster fatBuf) c 0) Walked
        (fatNextCluster fatBuf c) x
    · exact hcleared x hlater
    · obtain rfl := (hvisits.mp hx).resolve_right hlater
      rw [hkept x hlater, Function.update_self]
  · obtain ⟨hne, hlater⟩ := not_or.mp (mt hvisits.mpr hx)
    rw [hkept x hlater, Function.update_of_ne hne]
  · have hin := h.inBuf
    unfold InBuf at hin
    rw [houtside o ho, fatSetCluster_of_ne fatBuf (by omega) (by omega)]

/-- With more fuel than there are entries to clear, the loop ends. -/
theorem freeChain_freed {fuel : ℕ} {fatBuf : FatBuf} {c : ℕ}
    (hfuel : (uncleared fatBuf).card + 1 < fuel) :
    ∃ fatBuf', freeChain fuel fatBuf c = .ret fatBuf' ∧ Freed fatBuf c fatBuf' := by
  induction fuel generalizing fatBuf c with
  | zero => exact absurd hfuel (Nat.not_lt_zero _)
  | succ fuel ih =>
      by_cases hwalked : Walked c
      · rw [freeChain_succ fuel fatBuf hwalked]
        by_cases hclear : fatNextCluster fatBuf c = 0
        · -- the entry is clear already, so the walk ends here
          obtain ⟨fuel, rfl⟩ : ∃ n, fuel = n + 1 := ⟨fuel - 1, by omega⟩
          rw [hclear, freeChain_of_not_walked fuel _ not_walked_zero]
          refine ⟨_, rfl, Freed.step hwalked ?_⟩
          rw [hclear]
          exact freed_of_not_walked not_walked_zero
        · have hmem : c ∈ uncleared fatBuf := mem_uncleared.mpr ⟨hwalked, hclear⟩
          have hpos := Finset.card_pos.mpr ⟨c, hmem⟩
          obtain ⟨fatBuf', hreturns, hfreed⟩ :=
            @ih (fatSetCluster fatBuf c 0x000) (fatNextCluster fatBuf c) (by
              rw [uncleared_clear, Finset.card_erase_of_mem hmem]
              omega)
          exact ⟨fatBuf', hreturns, hfreed.step hwalked⟩
      · exact ⟨fatBuf, freeChain_of_not_walked fuel fatBuf hwalked, freed_of_not_walked hwalked⟩

/-- **Freeing ends and frees exactly the chain.** In any table and from any cluster, the loop
ends after fewer than `0xFF0` rounds without leaving the buffer, and leaves clear exactly the
entries of the clusters that the walk meets. -/
theorem freeChain_frees_walk (fatBuf : FatBuf) (first more : ℕ) :
    ∃ fatBuf', freeChain (0xFF0 + more) fatBuf first = .ret fatBuf' ∧
      Freed fatBuf first fatBuf' := by
  have hcard := card_uncleared_le fatBuf
  exact freeChain_freed (by omega)

end MasterOS.Fat
