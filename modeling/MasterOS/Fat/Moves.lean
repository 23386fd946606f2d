/-
# What moves on a volume

The changes that calls make, seen from the entries of the directories: at most one goes
and at most one comes, both in the current directory. Every other entry that is still
below the root is where it was, with its record, its clusters and, if it is a file, its
bytes. A directory that was not there before is the one that came, and is empty.
-/

import MasterOS.Fat.Regular
import MasterOS.Fat.Frame

namespace MasterOS.Fat

open MasterOS.Device MasterOS.Device.Prog MasterOS.Math

/-- From `d` to `d'` the entry `gone` of a directory went, and the entry `put` came into it. -/
structure EntryMoves (m : Mount) (dirc : ℕ) (d d' : Disk) (gone : Option Loc)
    (put : Option (Loc × RawDirEntry)) : Prop where
  went : ∀ loc, gone = some loc → ∃ n, LiveAt m d dirc n loc
  came : ∀ loc e, put = some (loc, e) → entryAt d' loc = e ∧ ∃ n, LiveAt m d' dirc n loc
  apart : ∀ node n loc e, put = some (loc, e) → LiveAt m d node n loc → gone = some loc
  reach : ∀ node, Reach m d' node → Reach m d node ∨
    ∃ loc e, put = some (loc, e) ∧ e.isDir = true ∧ e.firstCluster.toNat = node
  old : ∀ node n loc, Reach m d' node → LiveAt m d' node n loc →
    node = dirc ∧ put = some (loc, entryAt d' loc) ∨
      Reach m d node ∧ LiveAt m d node n loc ∧ gone ≠ some loc ∧
        (∀ e, put ≠ some (loc, e)) ∧ Keeps m d d' loc
  kept : ∀ node n loc, Reach m d' node → Reach m d node → LiveAt m d node n loc →
    gone ≠ some loc → LiveAt m d' node n loc

theorem EntryMoves.refl (m : Mount) (dirc : ℕ) (d : Disk) : EntryMoves m dirc d d none none where
  went _ h := (by cases h)
  came _ _ h := (by cases h)
  apart _ _ _ _ h := (by cases h)
  reach _ h := Or.inl h
  old _ _ _ hnode hlive := Or.inr ⟨hnode, hlive, fun h => (by cases h), fun _ h => (by cases h),
    .refl _ _ _⟩
  kept _ _ _ _ _ hlive _ := hlive

/-- Where no directory came, none is reached that was not. -/
theorem EntryMoves.reach_of_file {m : Mount} {dirc : ℕ} {d d' : Disk} {gone : Option Loc}
    {put : Option (Loc × RawDirEntry)} (h : EntryMoves m dirc d d' gone put)
    (hfile : ∀ loc e, put = some (loc, e) → e.isDir = false) (node : ℕ)
    (hnode : Reach m d' node) : Reach m d node := by
  rcases h.reach node hnode with hnode' | ⟨loc, e, hput, hdir, -⟩
  · exact hnode'
  · exact absurd ((hfile loc e hput).symm.trans hdir) (by decide)

section Moves

variable {m : Mount} {d d' : Disk} (hw : WellFormed m d) {dirc : ℕ} (hreach : Reach m d dirc)
include hw hreach

/-- Writes to free clusters move nothing. -/
theorem moves_of_nothing {C : List ℕ} (hedit : Edit m d d' (fun _ => False) C)
    (hunused : Unused m d C) : EntryMoves m dirc d d' none none := by
  have hs := hw.toSound
  have hbody : ∀ x, False → SameBody (entryAt d x) (entryAt d' x) := fun _ h => h.elim
  have hnodes {node : ℕ} : Reach m d' node ↔ Reach m d node :=
    reach_iff_of_rename hs hedit hunused hbody
  constructor
  case went =>
    intro loc h
    cases h
  case came =>
    intro loc e h
    cases h
  case apart =>
    intro node n loc e h
    cases h
  case reach => exact fun node h => Or.inl (hnodes.mp h)
  case old =>
    intro node n loc hnode hlive
    have hnode' := hnodes.mp hnode
    have hlive' := (liveAt_iff_of_rename hs hedit hunused hbody hnode').mp hlive
    refine Or.inr ⟨hnode', hlive', fun h => (by cases h), fun _ h => (by cases h), ?_⟩
    exact hedit.keeps_at hs hreach (fun _ h => h.elim) hnode'
      (fun _ hld => hunused.disjoint_chain hld) hlive' id fun _ hl => hunused.disjoint_owns hl
  case kept =>
    intro node n loc _ hnode hlive _
    exact (liveAt_iff_of_rename hs hedit hunused hbody hnode).mpr hlive

/-- An entry removed goes. -/
theorem moves_of_removed {n : ℕ} {loc : Loc} {l : List ℕ} (hlive : LiveAt m d dirc n loc)
    (howns : Owns m d (entryAt d loc) l) (hremoved : Removed m d d' loc l) :
    EntryMoves m dirc d d' (some loc) none := by
  have hs := hw.toSound
  have hsub := List.Subset.refl l
  obtain ⟨hgone, hnotEnd⟩ := hremoved.live_eq_false
  have hkept {node : ℕ} (h : Reach m d' node) :=
    reach_of_removal hs hreach hlive howns hremoved.edit hsub hgone h
  have hslot := kept_slot hs hreach hlive howns hremoved.edit hsub
  have hentry := kept_entry hs hreach hlive howns hremoved.edit hsub
  constructor
  case went => exact fun x h => ⟨n, Option.some.inj h ▸ hlive⟩
  case came =>
    intro x e h
    cases h
  case apart =>
    intro node k x e h
    cases h
  case reach => exact fun node h => Or.inl (hkept h).1
  case old =>
    intro node k x hnode hx
    have hnode' := hkept hnode
    obtain ⟨hx', hne⟩ := Forest.liveAt_of_remove hslot hentry
      (show ¬ (entryAt d' loc).live = true by simp [hgone])
      (entryKind.not_isEnd_of_live _ hlive.2.1) hnode' hx
    refine Or.inr ⟨hnode'.1, hx', fun h => hne (Option.some.inj h).symm, fun _ h => (by cases h), ?_⟩
    refine hremoved.edit.keeps_at hs hreach (fun y hy => ⟨n, hy ▸ hlive.1⟩) hnode'.1
      (fun ld hld => kept_disjoint hs hreach hlive howns hnode' hld) hx' hne fun l' hl' => ?_
    exact hs.disjoint x loc l' l (hx'.live hnode'.1) (hlive.live hreach) hne hl' howns
  case kept =>
    intro node k x hnode _ hx hne
    exact Forest.liveAt_after_remove hslot hentry
      (show ¬ (entryAt d' loc).isEnd = true by simp [hnotEnd]) (hkept hnode) hx
      fun heq => hne (heq ▸ rfl)

/-- A file renamed goes, and comes under its new name. -/
theorem moves_of_renamed {n : ℕ} {loc : Loc} {e : RawDirEntry} (hlive : LiveAt m d dirc n loc)
    (hedit : Edit m d d' (fun x => x = loc) []) (hentry : entryAt d' loc = e)
    (hbody : SameBody (entryAt d loc) e) : EntryMoves m dirc d d' (some loc) (some (loc, e)) := by
  have hs := hw.toSound
  have hunused : Unused m d [] := fun _ h => absurd h List.not_mem_nil
  have hbody' : ∀ x, x = loc → SameBody (entryAt d x) (entryAt d' x) := by
    rintro x rfl
    rw [hentry]
    exact hbody
  have hnodes {node : ℕ} : Reach m d' node ↔ Reach m d node :=
    reach_iff_of_rename hs hedit hunused hbody'
  constructor
  case went => exact fun x h => ⟨n, Option.some.inj h ▸ hlive⟩
  case came =>
    intro x e' h
    obtain ⟨rfl, rfl⟩ := Prod.mk.inj (Option.some.inj h)
    exact ⟨hentry, n, (liveAt_iff_of_rename hs hedit hunused hbody' hreach).mpr hlive⟩
  case apart =>
    intro node k x e' h _
    obtain ⟨rfl, -⟩ := Prod.mk.inj (Option.some.inj h)
    rfl
  case reach => exact fun node h => Or.inl (hnodes.mp h)
  case old =>
    intro node k x hnode hx
    have hnode' := hnodes.mp hnode
    have hx' := (liveAt_iff_of_rename hs hedit hunused hbody' hnode').mp hx
    by_cases hne : x = loc
    · obtain rfl := hne
      exact Or.inl ⟨(hs.slotAt_inj hnode' hreach hx'.1 hlive.1).1, by rw [hentry]⟩
    · refine Or.inr ⟨hnode', hx', fun h => hne (Option.some.inj h).symm,
        fun _ h => hne (Prod.mk.inj (Option.some.inj h)).1.symm, ?_⟩
      exact hedit.keeps_at hs hreach (fun y hy => ⟨n, hy ▸ hlive.1⟩) hnode'
        (fun _ _ => List.disjoint_nil_right _) hx' hne fun _ _ => List.disjoint_nil_right _
  case kept =>
    intro node k x _ hnode hx _
    exact (liveAt_iff_of_rename hs hedit hunused hbody' hnode).mpr hx

/-- A record put in over free clusters comes. -/
theorem moves_of_created {k : ℕ} {loc : Loc} {e : RawDirEntry} {a : Chained}
    (htake : FirstTake (slotAt m (fatAt m d) dirc) d freeVerdict k loc)
    (hcreated : Created m d d' loc e a) (hunused : Unused m d a.clusters) (hlive : e.live = true)
    (hbelow : e.isDir = true → ∀ n loc', ¬ LiveAt m d' e.firstCluster.toNat n loc') :
    EntryMoves m dirc d d' none (some (loc, e)) := by
  have hs := hw.toSound
  have hedit := hcreated.edit
  have hfree := live_eq_false_of_free htake.2.1
  have hnotEnd := RawDirEntry.isEnd_of_live hlive
  rw [← hcreated.entry] at hnotEnd
  have hslot := insert_slot hs hedit hunused
  have hentry := insert_entry hs hedit hunused
  have hbelow' : (entryAt d' loc).live = true → (entryAt d' loc).isDir = true →
      ∀ n loc', ¬ LiveAt m d' (entryAt d' loc).firstCluster.toNat n loc' := by
    rw [hcreated.entry]
    exact fun _ => hbelow
  have hkept {node n : ℕ} {x : Loc} (hnode : Reach m d node) (hx : LiveAt m d node n x) :
      LiveAt m d' node n x :=
    Forest.liveAt_after_insert hslot hentry (show ¬ (entryAt d loc).live = true by simp [hfree])
      (show ¬ (entryAt d' loc).isEnd = true by simp [hnotEnd]) hnode hx
  constructor
  case went =>
    intro x h
    cases h
  case came =>
    intro x e' h
    obtain ⟨rfl, rfl⟩ := Prod.mk.inj (Option.some.inj h)
    refine ⟨hcreated.entry, k, (hslot dirc hreach k).trans htake.1, ?_, fun j hj y hy hend => ?_⟩
    · exact (congrArg RawDirEntry.live hcreated.entry).trans hlive
    · -- the slots before the first free one hold neither an end nor the new record
      have hy' : slotAt m (fatAt m d) dirc j = some y := (hslot dirc hreach j).symm.trans hy
      have hne : y ≠ loc := fun heq =>
        hj.ne (hs.slotAt_inj hreach hreach (heq ▸ hy') htake.1).2
      have hsame : entryAt d' y = entryAt d y := hentry dirc j y hreach hy' hne
      have hnot := (htake.before_free hj hy').1
      rw [← hsame] at hnot
      exact absurd (hnot.symm.trans hend) (by decide)
  case apart =>
    intro node n x e' h hx
    obtain ⟨rfl, -⟩ := Prod.mk.inj (Option.some.inj h)
    exact absurd (hfree.symm.trans hx.2.1) (by decide)
  case reach =>
    intro node hnode
    rcases reach_of_insertion hw hedit hunused hbelow' hnode with hnode' | ⟨-, hdir, hfirst⟩
    · exact Or.inl hnode'
    · rw [hcreated.entry] at hdir hfirst
      exact Or.inr ⟨loc, e, rfl, hdir, hfirst⟩
  case old =>
    intro node n x hnode hx
    rcases reach_of_insertion hw hedit hunused hbelow' hnode with hnode' | ⟨hlive', hdir, rfl⟩
    · have hx' : slotAt m (fatAt m d) node n = some x := (hslot node hnode' n).symm.trans hx.1
      by_cases hne : x = loc
      · obtain rfl := hne
        exact Or.inl ⟨(hs.slotAt_inj hnode' hreach hx' htake.1).1, by rw [hcreated.entry]⟩
      · rcases Forest.liveAt_of_insert hslot hentry hw.forest_tail hnode' hx with heq | hlive'
        · exact absurd heq hne
        · refine Or.inr ⟨hnode', hlive', fun h => (by cases h),
            fun _ h => hne (Prod.mk.inj (Option.some.inj h)).1.symm, ?_⟩
          exact keeps_of_creation hs hreach hedit hunused (fun y hy => hy ▸ ⟨k, htake⟩)
            (hlive'.live hnode')
    · exact absurd hx (hbelow' hlive' hdir n x)
  case kept => exact fun node n x _ hnode hx _ => hkept hnode hx

end Moves

end MasterOS.Fat
