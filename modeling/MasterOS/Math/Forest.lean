/-
# Forests of slotted nodes

A node has a sequence of slots, each slot a location that holds an entry, and
some entries have a node of their own below them. A node is read from its first
slot on and ends at the first entry that says so; an entry before that end may be
live, and the live entries of the nodes that can be reached from the root are the
live entries of the forest.

The lemmas say how the live entries change when entries are edited in place. An
edit that keeps every entry's classification keeps them. Taking one entry out
leaves a part of the others. Putting one entry in adds that entry, provided it
does not move the end of its node over entries that were hidden behind it.
-/

import Mathlib.Logic.Basic
import Mathlib.Order.Basic

namespace MasterOS.Math

universe u v w

/-- A forest of slotted nodes, with the entries held at its locations. -/
structure Forest (Node : Type u) (Loc : Type v) (Entry : Type w) where
  root : Node
  slot : Node → ℕ → Option Loc
  entry : Loc → Entry

/-- How entries are read: which one ends its node, which ones are live, and which
node lies below one. An entry that ends a node is not live. -/
structure EntryKind (Node : Type u) (Entry : Type w) where
  isEnd : Entry → Prop
  live : Entry → Prop
  child : Entry → Option Node
  not_isEnd_of_live : ∀ e, live e → ¬ isEnd e

namespace Forest

variable {Node : Type u} {Loc : Type v} {Entry : Type w}
variable (K : EntryKind Node Entry) (F F' : Forest Node Loc Entry)

/-- The entry in slot `n` of a node is live: it is marked so, and no slot before it
ends the node. -/
def LiveAt (node : Node) (n : ℕ) (loc : Loc) : Prop :=
  F.slot node n = some loc ∧ K.live (F.entry loc) ∧
    ∀ k < n, ∀ loc', F.slot node k = some loc' → ¬ K.isEnd (F.entry loc')

/-- The nodes reached from the root through live entries. -/
inductive Reach : Node → Prop
  | root : Reach F.root
  | child {node below : Node} {n : ℕ} {loc : Loc} : Reach node → F.LiveAt K node n loc →
      K.child (F.entry loc) = some below → Reach below

/-- The live entries of the forest, by location. -/
def Live (loc : Loc) : Prop := ∃ node n, F.Reach K node ∧ F.LiveAt K node n loc

variable {K F F'}

theorem LiveAt.live {node : Node} {n : ℕ} {loc : Loc} (h : F.LiveAt K node n loc)
    (hreach : F.Reach K node) : F.Live K loc := ⟨node, n, hreach, h⟩

/-- A reached node is the root or lies below a live entry. -/
theorem Reach.owner {node : Node} (h : F.Reach K node) :
    node = F.root ∨ ∃ loc, F.Live K loc ∧ K.child (F.entry loc) = some node := by
  cases h with
  | root => exact Or.inl rfl
  | child hreach hlive hchild => exact Or.inr ⟨_, hlive.live hreach, hchild⟩

/-! ## Edits that keep the classification -/

section Frame

variable (hroot : F'.root = F.root)
  (hslot : ∀ node, F.Reach K node → ∀ n, F'.slot node n = F.slot node n)
  (hkind : ∀ node n loc, F.Reach K node → F.slot node n = some loc →
    (K.isEnd (F'.entry loc) ↔ K.isEnd (F.entry loc)) ∧
    (K.live (F'.entry loc) ↔ K.live (F.entry loc)) ∧
    (K.live (F.entry loc) → K.child (F'.entry loc) = K.child (F.entry loc)))

include hslot hkind in
theorem liveAt_iff_of_kind {node : Node} (hreach : F.Reach K node) {n : ℕ} {loc : Loc} :
    F'.LiveAt K node n loc ↔ F.LiveAt K node n loc := by
  simp only [LiveAt, hslot node hreach]
  constructor
  · rintro ⟨hloc, hlive, hbefore⟩
    refine ⟨hloc, (hkind node n loc hreach hloc).2.1.mp hlive, fun k hk loc' hloc' hend => ?_⟩
    exact hbefore k hk loc' hloc' ((hkind node k loc' hreach hloc').1.mpr hend)
  · rintro ⟨hloc, hlive, hbefore⟩
    refine ⟨hloc, (hkind node n loc hreach hloc).2.1.mpr hlive, fun k hk loc' hloc' hend => ?_⟩
    exact hbefore k hk loc' hloc' ((hkind node k loc' hreach hloc').1.mp hend)

include hroot hslot hkind in
theorem reach_iff_of_kind {node : Node} : F'.Reach K node ↔ F.Reach K node := by
  constructor
  · intro h
    induction h with
    | root => rw [hroot]; exact .root
    | child _ hlive hchild ih =>
        have hlive' := (liveAt_iff_of_kind hslot hkind ih).mp hlive
        refine .child ih hlive' ?_
        rw [← (hkind _ _ _ ih hlive'.1).2.2 hlive'.2.1]
        exact hchild
  · intro h
    induction h with
    | root => rw [← hroot]; exact .root
    | child hreach hlive hchild ih =>
        refine .child ih ((liveAt_iff_of_kind hslot hkind hreach).mpr hlive) ?_
        rw [(hkind _ _ _ hreach hlive.1).2.2 hlive.2.1]
        exact hchild

include hroot hslot hkind in
/-- An edit that keeps slots and classification keeps the live entries. -/
theorem live_iff_of_kind {loc : Loc} : F'.Live K loc ↔ F.Live K loc := by
  constructor
  · rintro ⟨node, n, hreach, hlive⟩
    have hreach' := (reach_iff_of_kind hroot hslot hkind).mp hreach
    exact ⟨node, n, hreach', (liveAt_iff_of_kind hslot hkind hreach').mp hlive⟩
  · rintro ⟨node, n, hreach, hlive⟩
    exact ⟨node, n, (reach_iff_of_kind hroot hslot hkind).mpr hreach,
      (liveAt_iff_of_kind hslot hkind hreach).mpr hlive⟩

end Frame

/-! ## Taking an entry out -/

section Remove

variable (loc₀ : Loc)

variable (K F) in
/-- The nodes that keep an owner when the entry at `loc₀` goes: the root, and the
nodes below the other live entries. -/
def Kept (node : Node) : Prop :=
  F.Reach K node ∧ (node = F.root ∨
    ∃ loc, loc ≠ loc₀ ∧ F.Live K loc ∧ K.child (F.entry loc) = some node)

variable {loc₀}
variable (hroot : F'.root = F.root)
  (hslot : ∀ node, F.Kept K loc₀ node → ∀ n, F'.slot node n = F.slot node n)
  (hentry : ∀ node n loc, F.Kept K loc₀ node → F.slot node n = some loc → loc ≠ loc₀ →
    F'.entry loc = F.entry loc)
  (hgone : ¬ K.live (F'.entry loc₀)) (hnotEnd : ¬ K.isEnd (F.entry loc₀))
  (hnotEnd' : ¬ K.isEnd (F'.entry loc₀))

include hslot hentry hgone hnotEnd in
/-- In a node that is kept, an entry live afterwards was live before. -/
theorem liveAt_of_remove {node : Node} (hkept : F.Kept K loc₀ node) {n : ℕ} {loc : Loc}
    (h : F'.LiveAt K node n loc) : F.LiveAt K node n loc ∧ loc ≠ loc₀ := by
  obtain ⟨hloc, hlive, hbefore⟩ := h
  rw [hslot node hkept] at hloc
  have hne : loc ≠ loc₀ := fun heq => hgone (heq ▸ hlive)
  refine ⟨⟨hloc, hentry node n loc hkept hloc hne ▸ hlive, fun k hk loc' hloc' hend => ?_⟩, hne⟩
  by_cases heq : loc' = loc₀
  · exact hnotEnd (heq ▸ hend)
  · refine hbefore k hk loc' (by rw [hslot node hkept]; exact hloc') ?_
    rw [hentry node k loc' hkept hloc' heq]
    exact hend

include hslot hentry hnotEnd' in
/-- In a node that is kept, the other live entries stay live. -/
theorem liveAt_after_remove {node : Node} (hkept : F.Kept K loc₀ node) {n : ℕ} {loc : Loc}
    (h : F.LiveAt K node n loc) (hne : loc ≠ loc₀) : F'.LiveAt K node n loc := by
  obtain ⟨hloc, hlive, hbefore⟩ := h
  refine ⟨by rw [hslot node hkept]; exact hloc, ?_, fun k hk loc' hloc' hend => ?_⟩
  · rw [hentry node n loc hkept hloc hne]
    exact hlive
  · rw [hslot node hkept] at hloc'
    by_cases heq : loc' = loc₀
    · exact hnotEnd' (heq ▸ hend)
    · rw [hentry node k loc' hkept hloc' heq] at hend
      exact hbefore k hk loc' hloc' hend

include hroot hslot hentry hgone hnotEnd in
theorem reach_of_remove {node : Node} (h : F'.Reach K node) : F.Kept K loc₀ node := by
  induction h with
  | root =>
      rw [hroot]
      exact ⟨.root, Or.inl rfl⟩
  | child _ hlive hchild ih =>
      obtain ⟨hlive', hne⟩ := liveAt_of_remove hslot hentry hgone hnotEnd ih hlive
      rw [hentry _ _ _ ih hlive'.1 hne] at hchild
      exact ⟨.child ih.1 hlive' hchild, Or.inr ⟨_, hne, hlive'.live ih.1, hchild⟩⟩

include hroot hslot hentry hgone hnotEnd in
/-- **Taking an entry out leaves a part of the others**, as they were. -/
theorem live_of_remove {loc : Loc} (h : F'.Live K loc) :
    F.Live K loc ∧ loc ≠ loc₀ ∧ F'.entry loc = F.entry loc := by
  obtain ⟨node, n, hreach, hlive⟩ := h
  have hkept := reach_of_remove hroot hslot hentry hgone hnotEnd hreach
  obtain ⟨hlive', hne⟩ := liveAt_of_remove hslot hentry hgone hnotEnd hkept hlive
  exact ⟨hlive'.live hkept.1, hne, hentry node n loc hkept hlive'.1 hne⟩

include hroot hslot hentry hnotEnd' in
/-- When the node below the entry that goes holds nothing live, every other node is
still reached. -/
theorem reach_after_remove (hempty : ∀ below, K.child (F.entry loc₀) = some below →
      ∀ n loc, ¬ F.LiveAt K below n loc) {node : Node} (h : F.Reach K node) :
    K.child (F.entry loc₀) = some node ∨ F'.Reach K node ∧ F.Kept K loc₀ node := by
  induction h with
  | root => exact Or.inr ⟨by rw [← hroot]; exact .root, .root, Or.inl rfl⟩
  | @child node below n loc hreach hlive hchild ih =>
      rcases ih with hbelow | ⟨hreach', hkept⟩
      · exact absurd hlive (hempty node hbelow n loc)
      · by_cases hne : loc = loc₀
        · exact Or.inl (hne ▸ hchild)
        · refine Or.inr ⟨.child hreach'
            (liveAt_after_remove hslot hentry hnotEnd' hkept hlive hne) ?_,
            .child hreach hlive hchild, Or.inr ⟨loc, hne, hlive.live hreach, hchild⟩⟩
          rw [hentry node n loc hkept hlive.1 hne]
          exact hchild

include hroot hslot hentry hnotEnd' in
/-- When the node below the entry that goes holds nothing live, every other live
entry stays live. -/
theorem live_after_remove (hempty : ∀ below, K.child (F.entry loc₀) = some below →
      ∀ n loc, ¬ F.LiveAt K below n loc) {loc : Loc} (h : F.Live K loc) (hne : loc ≠ loc₀) :
    F'.Live K loc := by
  obtain ⟨node, n, hreach, hlive⟩ := h
  rcases reach_after_remove hroot hslot hentry hnotEnd' hempty hreach with
    hbelow | ⟨hreach', hkept⟩
  · exact absurd hlive (hempty node hbelow n loc)
  · exact (liveAt_after_remove hslot hentry hnotEnd' hkept hlive hne).live hreach'

include hroot hslot hentry hnotEnd' in
/-- The node that holds the entry that goes is still reached: a path to it through
that entry would have passed it before. -/
theorem reach_home {home : Node} (hhome : F.Reach K home)
    (hinj : ∀ node n, F.Reach K node → F.LiveAt K node n loc₀ → node = home) :
    F'.Reach K home := by
  have hall {node : Node} (h : F.Reach K node) :
      F'.Reach K node ∧ F.Kept K loc₀ node ∨ F'.Reach K home := by
    induction h with
    | root => exact Or.inl ⟨by rw [← hroot]; exact .root, .root, Or.inl rfl⟩
    | @child node below n loc hreach hlive hchild ih =>
        rcases ih with ⟨hreach', hkept⟩ | hdone
        · by_cases hne : loc = loc₀
          · have heq := hinj node n hreach (hne ▸ hlive)
            exact Or.inr (heq ▸ hreach')
          · refine Or.inl ⟨.child hreach'
              (liveAt_after_remove hslot hentry hnotEnd' hkept hlive hne) ?_,
              .child hreach hlive hchild, Or.inr ⟨loc, hne, hlive.live hreach, hchild⟩⟩
            rw [hentry node n loc hkept hlive.1 hne]
            exact hchild
        · exact Or.inr hdone
  rcases hall hhome with ⟨hreach', -⟩ | hreach'
  · exact hreach'
  · exact hreach'

end Remove

/-! ## Putting an entry in -/

section Insert

variable {loc₀ : Loc} (hroot : F'.root = F.root)
  (hslot : ∀ node, F.Reach K node → ∀ n, F'.slot node n = F.slot node n)
  (hentry : ∀ node n loc, F.Reach K node → F.slot node n = some loc → loc ≠ loc₀ →
    F'.entry loc = F.entry loc)
  (htail : ∀ node k n loc loc', F.Reach K node → k < n → F.slot node k = some loc →
    F.slot node n = some loc' → K.isEnd (F.entry loc) → K.isEnd (F.entry loc'))
  (hfree : ¬ K.live (F.entry loc₀))
  (hbelow : ∀ below, K.live (F'.entry loc₀) → K.child (F'.entry loc₀) = some below →
    ∀ n loc, ¬ F'.LiveAt K below n loc)

include hslot hentry htail in
/-- In a node reached before, an entry live after the insertion is the new one or
was live. Entries behind the old end of a node end it themselves, so moving the
end past one slot uncovers nothing. -/
theorem liveAt_of_insert {node : Node} (hreach : F.Reach K node) {n : ℕ} {loc : Loc}
    (h : F'.LiveAt K node n loc) : loc = loc₀ ∨ F.LiveAt K node n loc := by
  obtain ⟨hloc, hlive, hbefore⟩ := h
  rw [hslot node hreach] at hloc
  by_cases hne : loc = loc₀
  · exact Or.inl hne
  · have hlive' : K.live (F.entry loc) := hentry node n loc hreach hloc hne ▸ hlive
    refine Or.inr ⟨hloc, hlive', fun k hk loc' hloc' hend => ?_⟩
    exact K.not_isEnd_of_live _ hlive' (htail node k n loc' loc hreach hk hloc' hloc hend)

include hslot hentry hfree in
/-- In a node reached before, what was live stays live, unless the new entry ends
the node. -/
theorem liveAt_after_insert (hnotEnd' : ¬ K.isEnd (F'.entry loc₀)) {node : Node}
    (hreach : F.Reach K node) {n : ℕ} {loc : Loc} (h : F.LiveAt K node n loc) :
    F'.LiveAt K node n loc := by
  obtain ⟨hloc, hlive, hbefore⟩ := h
  have hne : loc ≠ loc₀ := fun heq => hfree (heq ▸ hlive)
  refine ⟨by rw [hslot node hreach]; exact hloc, ?_, fun k hk loc' hloc' hend => ?_⟩
  · rw [hentry node n loc hreach hloc hne]
    exact hlive
  · rw [hslot node hreach] at hloc'
    by_cases heq : loc' = loc₀
    · exact hnotEnd' (heq ▸ hend)
    · rw [hentry node k loc' hreach hloc' heq] at hend
      exact hbefore k hk loc' hloc' hend

include hroot hslot hentry htail hbelow in
theorem reach_of_insert {node : Node} (h : F'.Reach K node) :
    F.Reach K node ∨ K.live (F'.entry loc₀) ∧ K.child (F'.entry loc₀) = some node := by
  induction h with
  | root =>
      rw [hroot]
      exact Or.inl .root
  | @child node below n loc _ hlive hchild ih =>
      rcases ih with hreach | ⟨hlive₀, hnew⟩
      · rcases liveAt_of_insert hslot hentry htail hreach hlive with rfl | hlive'
        · exact Or.inr ⟨hlive.2.1, hchild⟩
        · by_cases hne : loc = loc₀
          · exact Or.inr ⟨hne ▸ hlive.2.1, hne ▸ hchild⟩
          · rw [hentry node n loc hreach hlive'.1 hne] at hchild
            exact Or.inl (.child hreach hlive' hchild)
      · exact absurd hlive (hbelow node hlive₀ hnew n loc)

include hroot hslot hentry htail hbelow in
/-- **Putting an entry in adds at most that entry**, and leaves the others as they were. -/
theorem live_of_insert {loc : Loc} (h : F'.Live K loc) :
    loc = loc₀ ∨ loc ≠ loc₀ ∧ F.Live K loc ∧ F'.entry loc = F.entry loc := by
  obtain ⟨node, n, hreach, hlive⟩ := h
  rcases reach_of_insert hroot hslot hentry htail hbelow hreach with hreach' | ⟨hlive₀, hnew⟩
  · rcases liveAt_of_insert hslot hentry htail hreach' hlive with heq | hlive'
    · exact Or.inl heq
    · by_cases hne : loc = loc₀
      · exact Or.inl hne
      · exact Or.inr ⟨hne, hlive'.live hreach', hentry node n loc hreach' hlive'.1 hne⟩
  · exact absurd hlive (hbelow node hlive₀ hnew n loc)

include hroot hslot hentry hfree in
/-- Nodes reached before the insertion are still reached. -/
theorem reach_after_insert (hnotEnd' : ¬ K.isEnd (F'.entry loc₀)) {node : Node}
    (h : F.Reach K node) : F'.Reach K node := by
  induction h with
  | root =>
      rw [← hroot]
      exact .root
  | child hreach hlive hchild ih =>
      refine .child ih (liveAt_after_insert hslot hentry hfree hnotEnd' hreach hlive) ?_
      rw [hentry _ _ _ hreach hlive.1 fun heq => hfree (heq ▸ hlive.2.1)]
      exact hchild

end Insert

end Forest

end MasterOS.Math
