/-
# Linked chains in a successor table

A table sends each node to a next one. A chain from a node follows the table
through admissible nodes and stops at the first value that ends it. The list of
the nodes a chain visits is determined by its head, has no repetition, and
depends only on the table's values at its own nodes; these three facts carry all
that is said here about relinking and unlinking.

`Visits` is the weaker relation that also makes sense when the walk does not
end: it only says that a node lies on the walk.
-/

import Mathlib.Data.List.Nodup
import Mathlib.Logic.Function.Basic
import Mathlib.Data.Finset.Card
import Mathlib.Order.Nat
import Mathlib.Data.Nat.Find

namespace MasterOS.Math

universe u

variable {α : Type u} {next next' : α → α} {ok ended : α → Prop}

/-- `Chain next ok ended c l`: from `c` the table leads through exactly the nodes
`l`, all admissible, and the last one's value ends the chain. -/
inductive Chain (next : α → α) (ok ended : α → Prop) : α → List α → Prop
  | last {c : α} : ok c → ended (next c) → Chain next ok ended c [c]
  | link {c : α} {l : List α} : ok c → Chain next ok ended (next c) l →
      Chain next ok ended c (c :: l)

/-- `Visits next ok c x`: the walk from `c` along the table meets `x` before it
leaves the admissible nodes. -/
inductive Visits (next : α → α) (ok : α → Prop) : α → α → Prop
  | here {c : α} : ok c → Visits next ok c c
  | there {c x : α} : ok c → Visits next ok (next c) x → Visits next ok c x

/-- A walk stays in a set that the table does not lead out of, as long as it goes on. -/
theorem Visits.mem_of_closed {S : α → Prop}
    (closed : ∀ x, S x → ok x → ok (next x) → S (next x)) {c x : α} (h : Visits next ok c x)
    (hc : S c) : S x := by
  induction h with
  | here _ => exact hc
  | @there c x hok hrest ih =>
      apply ih
      apply closed c hc hok
      cases hrest with
      | here hok' => exact hok'
      | there hok' _ => exact hok'

/-- A walk meets admissible nodes only. -/
theorem Visits.ok_of_visits {c x : α} (h : Visits next ok c x) : ok x := by
  induction h with
  | here hok => exact hok
  | there _ _ ih => exact ih

/-- A walk that cannot leave its first node meets nothing else. -/
theorem Visits.eq_of_dead_end {c x : α} (h : Visits next ok c x) (hdead : ¬ ok (next c)) :
    x = c := by
  cases h with
  | here _ => rfl
  | there _ hrest =>
      cases hrest with
      | here hok => exact absurd hok hdead
      | there hok _ => exact absurd hok hdead

section Erase

variable [DecidableEq α] {c dead : α} (hdead : ¬ ok dead)
include hdead

/-- What a walk meets once a node leads nowhere, it met before. -/
theorem Visits.of_update {y x : α} (h : Visits (Function.update next c dead) ok y x) :
    Visits next ok y x := by
  induction h with
  | here hok => exact .here hok
  | @there y x hok hrest ih =>
      by_cases hy : y = c
      · rw [hy, Function.update_self] at hrest
        cases hrest with
        | here hok' => exact absurd hok' hdead
        | there hok' _ => exact absurd hok' hdead
      · rw [Function.update_of_ne hy] at ih
        exact .there hok ih

omit hdead in
/-- A walk avoids a node, or ends at it, or has a last time that it leaves it. -/
theorem Visits.update_or {y x : α} (h : Visits next ok y x) :
    Visits (Function.update next c dead) ok y x ∨
      x = c ∨ Visits (Function.update next c dead) ok (next c) x := by
  induction h with
  | here hok => exact Or.inl (.here hok)
  | @there y x hok _ ih =>
      rcases ih with hrest | hdone
      · by_cases hy : y = c
        · exact Or.inr (Or.inr (hy ▸ hrest))
        · refine Or.inl (.there hok ?_)
          rw [Function.update_of_ne hy]
          exact hrest
      · exact Or.inr hdone

/-- **Erasing a walk from its head.** A walk meets its first node, and what the walk from
the next node still meets when the first one leads nowhere any more. -/
theorem visits_iff_update {x : α} (hok : ok c) :
    Visits next ok c x ↔ x = c ∨ Visits (Function.update next c dead) ok (next c) x := by
  constructor
  · intro h
    rcases h.update_or with hstay | hdone
    · refine Or.inl (hstay.eq_of_dead_end ?_)
      rw [Function.update_self]
      exact hdead
    · exact hdone
  · rintro (rfl | hrest)
    · exact .here hok
    · exact .there hok (hrest.of_update hdead)

end Erase

namespace Chain

/-- The list of a chain starts with its head. -/
theorem eq_cons {c : α} {l : List α} (h : Chain next ok ended c l) :
    ∃ rest, l = c :: rest := by
  cases h with
  | last => exact ⟨[], rfl⟩
  | link => exact ⟨_, rfl⟩

theorem head_mem {c : α} {l : List α} (h : Chain next ok ended c l) : c ∈ l := by
  obtain ⟨rest, rfl⟩ := h.eq_cons
  exact List.mem_cons_self

theorem ok_head {c : α} {l : List α} (h : Chain next ok ended c l) : ok c := by
  cases h with
  | last hc _ => exact hc
  | link hc _ => exact hc

/-- Every node of a chain is admissible. -/
theorem ok_of_mem {c x : α} {l : List α} (h : Chain next ok ended c l) (hx : x ∈ l) :
    ok x := by
  induction h with
  | last hc _ =>
      rw [List.mem_singleton] at hx
      exact hx ▸ hc
  | link hc _ ih =>
      rcases List.mem_cons.mp hx with rfl | hx
      · exact hc
      · exact ih hx

/-- The table's value at a node of a chain is admissible or ends the chain. -/
theorem next_of_mem {c x : α} {l : List α} (h : Chain next ok ended c l) (hx : x ∈ l) :
    ok (next x) ∨ ended (next x) := by
  induction h with
  | last _ hend =>
      rw [List.mem_singleton] at hx
      exact Or.inr (hx ▸ hend)
  | link _ hrest ih =>
      rcases List.mem_cons.mp hx with rfl | hx
      · exact Or.inl hrest.ok_head
      · exact ih hx

/-- A node of a chain heads a chain of its own, a tail of the first. -/
theorem suffix_of_mem {c x : α} {l : List α} (h : Chain next ok ended c l) (hx : x ∈ l) :
    ∃ tail, Chain next ok ended x tail ∧ tail <:+ l := by
  induction h with
  | last hc hend =>
      rw [List.mem_singleton] at hx
      subst hx
      exact ⟨[_], .last hc hend, List.suffix_rfl⟩
  | link hc hrest ih =>
      rcases List.mem_cons.mp hx with rfl | hx
      · exact ⟨_, .link hc hrest, List.suffix_rfl⟩
      · obtain ⟨tail, htail, hsuffix⟩ := ih hx
        exact ⟨tail, htail, hsuffix.trans (List.suffix_cons _ _)⟩

/-- A chain depends only on the table's values at its own nodes. -/
theorem congr {c : α} {l : List α} (h : Chain next ok ended c l)
    (same : ∀ x ∈ l, next' x = next x) : Chain next' ok ended c l := by
  induction h with
  | last hc hend =>
      exact .last hc (by rw [same _ (List.mem_singleton_self _)]; exact hend)
  | link hc hrest ih =>
      refine .link hc ?_
      rw [same _ List.mem_cons_self]
      exact ih fun x hx => same x (List.mem_cons_of_mem _ hx)

/-- A chain that ends only in values of a smaller kind ends in one. -/
theorem mono_ended {ended' : α → Prop} {c : α} {l : List α} (h : Chain next ok ended c l)
    (same : ∀ x ∈ l, ended (next x) → ended' (next x)) : Chain next ok ended' c l := by
  induction h with
  | last hc hend => exact .last hc (same _ (List.mem_singleton_self _) hend)
  | link hc _ ih => exact .link hc (ih fun x hx => same x (List.mem_cons_of_mem _ hx))

section Ending

variable (sep : ∀ x, ended x → ¬ ok x)
include sep

/-- The nodes of a chain are determined by its head. -/
theorem unique {c : α} {l l' : List α} (h : Chain next ok ended c l)
    (h' : Chain next ok ended c l') : l = l' := by
  induction h generalizing l' with
  | last hc hend =>
      cases h' with
      | last => rfl
      | link _ hrest => exact absurd hrest.ok_head (sep _ hend)
  | link hc hrest ih =>
      cases h' with
      | last _ hend => exact absurd hrest.ok_head (sep _ hend)
      | link _ hrest' => rw [ih hrest']

/-- A chain visits no node twice. -/
theorem nodup {c : α} {l : List α} (h : Chain next ok ended c l) : l.Nodup := by
  induction h with
  | last => exact List.nodup_singleton _
  | @link c l hc hrest ih =>
      refine List.nodup_cons.mpr ⟨fun hmem => ?_, ih⟩
      obtain ⟨tail, htail, hsuffix⟩ := hrest.suffix_of_mem hmem
      have heq : tail = c :: l := htail.unique sep (.link hc hrest)
      have hlength := hsuffix.length_le
      simp only [heq, List.length_cons] at hlength
      omega

/-- The walk from the head of a chain meets exactly the nodes of the chain. -/
theorem visits_iff_mem {c x : α} {l : List α} (h : Chain next ok ended c l) :
    Visits next ok c x ↔ x ∈ l := by
  constructor
  · intro hvisit
    induction hvisit generalizing l with
    | here => exact h.head_mem
    | there _ hvisit ih =>
        cases h with
        | last _ hend =>
            cases hvisit with
            | here hok => exact absurd hok (sep _ hend)
            | there hok _ => exact absurd hok (sep _ hend)
        | link _ hrest => exact List.mem_cons_of_mem _ (ih hrest)
  · intro hx
    induction h with
    | last hc _ =>
        rw [List.mem_singleton] at hx
        subst hx
        exact .here hc
    | link hc hrest ih =>
        rcases List.mem_cons.mp hx with rfl | hx
        · exact .here hc
        · exact .there hc (ih hx)

end Ending

end Chain

/-- A sequence that goes on alike from equal values, and takes few values, shows early
whatever it shows at all. -/
theorem exists_le_of_repeats {g : ℕ → α} (shift : ∀ i j t, g i = g j → g (i + t) = g (j + t))
    {S : Finset α} (hmem : ∀ i, g (i + 1) ∈ S) {Q : α → Prop} (h : ∃ k, Q (g k)) :
    ∃ k ≤ S.card, Q (g k) := by
  classical
  refine ⟨Nat.find h, ?_, Nat.find_spec h⟩
  have hinj : Set.InjOn (fun i => g (i + 1)) (Finset.range (Nat.find h)) := by
    intro i hi j hj heq
    by_contra hne
    -- equal values before the first occurrence would give an earlier one
    have hearly : ∀ i j, i < j → j < Nat.find h → g (i + 1) ≠ g (j + 1) := by
      intro i j hij hj heq
      have hlast := shift _ _ (Nat.find h - (j + 1)) heq
      rw [Nat.add_sub_cancel' hj] at hlast
      refine Nat.find_min h (m := i + 1 + (Nat.find h - (j + 1))) (by omega) ?_
      rw [hlast]
      exact Nat.find_spec h
    rw [Finset.coe_range, Set.mem_Iio] at hi hj
    rcases Nat.lt_or_gt_of_ne hne with hlt | hlt
    · exact hearly i j hlt hj heq
    · exact hearly j i hlt hi heq.symm
  have hcard := Finset.card_le_card_of_injOn (s := Finset.range (Nat.find h)) (t := S)
    (fun i => g (i + 1)) (fun i _ => hmem i) hinj
  rwa [Finset.card_range] at hcard

end MasterOS.Math
