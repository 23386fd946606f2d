/-
# What is mapped stays mapped

Runs of `memMapPage` and `changeHeapSize` beside a history of what was mapped where. The
entry that is written keeps the bits of the old one, the frame allocator hands out two
frames in turn, and `heapSize` is never written, so that a growing heap maps its first page
again. As long as no call meets one of these, every page that was mapped translates to the
frame it was last mapped to, and no table lies on a frame of the heap.
-/

import MasterOS.Memory.Paging

namespace MasterOS.Memory

open MasterOS.Device MasterOS.Math

/-! ## Runs with a history -/

/-- One page that was mapped; `heap` tells the pages of `changeHeapSize` from others. -/
structure Mapping where
  page : ℕ
  phys : ℕ
  flags : ℕ
  heap : Bool

/-- The state with the history of its mappings, the latest first. -/
structure Noted where
  paging : Paging
  history : List Mapping

/-- The mapping that is in force for a page. -/
def inForce (history : List Mapping) (page : ℕ) : Option Mapping :=
  history.find? fun mapping => mapping.page = page

/-- `memMapPage`, noted. -/
def Noted.map (s : Noted) (virtualAddr physicalAddr flags : ℕ) (heap : Bool) : Option Noted :=
  (memMapPage s.paging virtualAddr physicalAddr flags).map fun m =>
    ⟨m, ⟨virtualAddr / 4096, physicalAddr, flags, heap⟩ :: s.history⟩

/-- The allocator of a state after a frame was handed out. -/
def Noted.withPmm (s : Noted) (pmm : Pmm) : Noted :=
  { s with paging := { s.paging with pmm := pmm } }

/-- The loop of `changeHeapSize`, noted. -/
def Noted.grow (oldPageTop : ℕ) : (left i : ℕ) → Noted → Option Noted
  | 0, _, s => some s
  | left + 1, i, s =>
      (pmmAllocPageFrame s.paging.pmm).bind fun phys =>
        ((s.withPmm phys.2).map (heapAddr oldPageTop i) phys.1 pageFlagWrt true).bind
          (Noted.grow oldPageTop left (i + 1))

/-- The calls. -/
inductive Call
  | map (virtualAddr physicalAddr flags : UInt32)
  | heap (newSize : ℤ)

/-- A call as the code runs it. -/
def Call.run (m : Paging) : Call → Option Paging
  | .map virtualAddr physicalAddr flags =>
      memMapPage m virtualAddr.toNat physicalAddr.toNat flags.toNat
  | .heap newSize => changeHeapSize m newSize

/-- A call, noted. -/
def Noted.step (s : Noted) : Call → Option Noted
  | .map virtualAddr physicalAddr flags =>
      s.map virtualAddr.toNat physicalAddr.toNat flags.toNat false
  | .heap newSize => (heapDiff s.paging newSize).bind fun diff =>
      s.grow (ceilDiv s.paging.heapSize 0x1000) diff 0

/-- The history only watches. -/
theorem Noted.step_paging (s : Noted) (call : Call) :
    (s.step call).map Noted.paging = call.run s.paging := by
  have hmap (s : Noted) (v p f : ℕ) (heap : Bool) :
      (s.map v p f heap).map Noted.paging = memMapPage s.paging v p f := by
    unfold Noted.map
    cases memMapPage s.paging v p f <;> rfl
  have hgrow (top left i : ℕ) (s : Noted) :
      (s.grow top left i).map Noted.paging = growHeap top left i s.paging := by
    induction left generalizing i s with
    | zero => rfl
    | succ left ih =>
        rw [Noted.grow, growHeap]
        cases hphys : pmmAllocPageFrame s.paging.pmm with
        | none => rfl
        | some phys =>
            have hpage := hmap (s.withPmm phys.2) (heapAddr top i) phys.1 pageFlagWrt true
            rw [Option.bind_some, Option.bind_some]
            rw [← show memMapPage (s.withPmm phys.2).paging (heapAddr top i) phys.1 pageFlagWrt =
                memMapPage { s.paging with pmm := phys.2 } (heapAddr top i) phys.1 pageFlagWrt
              from rfl, ← hpage]
            cases (s.withPmm phys.2).map (heapAddr top i) phys.1 pageFlagWrt true with
            | none => rfl
            | some next => exact ih (i + 1) next
  cases call with
  | map virtualAddr physicalAddr flags => exact hmap s ..
  | heap newSize =>
      rw [Noted.step, Call.run, changeHeapSize]
      cases heapDiff s.paging newSize with
      | none => rfl
      | some diff => exact hgrow _ diff 0 s

/-- `initMemory`, with nothing mapped yet. -/
def Noted.start (mem : Mem) (dir : ℕ) (memHigh physicalAllocStart : UInt32) : Noted :=
  ⟨initMemory mem dir memHigh physicalAllocStart, []⟩

/-! ## The calls that go well -/

/-- No table lies on a frame, the directory's slot for itself included. -/
def NoTable (m : Paging) (frame : ℕ) : Prop :=
  ∀ slot, slot < 1024 → HasTable m.mem m.dir slot → tableOf m.mem m.dir slot ≠ frame

/-- No page of the heap lies on a frame. -/
def NoHeapPage (history : List Mapping) (frame : ℕ) : Prop :=
  ∀ page mapping, inForce history page = some mapping → mapping.heap = true →
    frameOf mapping.phys ≠ frame

/-- A page may be mapped. Its slot is neither a large page nor the recursive one, and the
flags stay below the address. An old entry adds no bit to the new one. A new table gets a
frame that holds neither a table nor a page of the heap, and not the flag of a large page.
A page of the heap gets a frame that holds no table. -/
structure MapGood (s : Noted) (virtualAddr physicalAddr flags : ℕ) (heap : Bool) : Prop where
  slot : virtualAddr / 4194304 < 1023
  notLarge : ¬ (Present (s.paging.mem s.paging.dir (virtualAddr / 4194304)) ∧
    Large (s.paging.mem s.paging.dir (virtualAddr / 4194304)))
  aligned : physicalAddr % 4096 = 0
  low : flags < 4096
  oldEntry : s.paging.oldEntry (virtualAddr / 4096) ||| (physicalAddr ||| pageFlagPres ||| flags) =
    physicalAddr ||| pageFlagPres ||| flags
  newTable : ¬ Present (s.paging.mem s.paging.dir (virtualAddr / 4194304)) → ¬ Large flags ∧
    ∀ addr pmm, pmmAllocPageFrame s.paging.pmm = some (addr, pmm) →
      NoTable s.paging (frameOf addr) ∧ NoHeapPage s.history (frameOf addr) ∧
        (heap = true → frameOf addr ≠ frameOf physicalAddr)
  heap : heap = true → NoTable s.paging (frameOf physicalAddr)

/-- Every page that `changeHeapSize` maps may be mapped. -/
def GrowGood (oldPageTop : ℕ) : (left i : ℕ) → Noted → Prop
  | 0, _, _ => True
  | left + 1, i, s => ∀ phys, pmmAllocPageFrame s.paging.pmm = some phys →
      MapGood (s.withPmm phys.2) (heapAddr oldPageTop i) phys.1 pageFlagWrt true ∧
        ∀ next, (s.withPmm phys.2).map (heapAddr oldPageTop i) phys.1 pageFlagWrt true = some next →
          GrowGood oldPageTop left (i + 1) next

/-- A call goes well: the pages it maps may be mapped, one after the other. -/
def Call.Good (s : Noted) : Call → Prop
  | .map virtualAddr physicalAddr flags =>
      MapGood s virtualAddr.toNat physicalAddr.toNat flags.toNat false
  | .heap newSize => ∀ diff, heapDiff s.paging newSize = some diff →
      GrowGood (ceilDiv s.paging.heapSize 0x1000) diff 0 s

/-! ## The invariant -/

/-- What the history promises of memory. -/
structure Noted.Translated (s : Noted) : Prop where
  entry : ∀ page mapping, inForce s.history page = some mapping →
    HasTable s.paging.mem s.paging.dir (page / 1024) ∧
      s.paging.mem (tableOf s.paging.mem s.paging.dir (page / 1024)) (page % 1024) =
        mapping.phys ||| pageFlagPres ||| mapping.flags
  frame : ∀ page mapping, inForce s.history page = some mapping →
    walk s.paging.mem s.paging.dir page = some (frameOf mapping.phys)
  heap : ∀ page mapping, inForce s.history page = some mapping → mapping.heap = true →
    NoTable s.paging (frameOf mapping.phys)

/-- The invariant: the directory points to itself, no two slots share a table, and what was
mapped is in the tables. -/
structure Noted.Ok (s : Noted) : Prop where
  recursive : Recursive s.paging.mem s.paging.dir
  apart : ∀ i j, i < 1024 → j < 1024 → HasTable s.paging.mem s.paging.dir i →
    HasTable s.paging.mem s.paging.dir j →
    tableOf s.paging.mem s.paging.dir i = tableOf s.paging.mem s.paging.dir j → i = j
  low : ∀ page mapping, inForce s.history page = some mapping →
    page / 1024 < 1023 ∧ mapping.flags < 4096
  translated : s.Translated

theorem bootPageDir_cases {slot : ℕ} (hslot : slot ≠ 0) :
    bootPageDir slot = 0 ∨ Large (bootPageDir slot) := by
  unfold bootPageDir
  rw [if_neg hslot]
  by_cases hlarge : 768 ≤ slot ∧ slot < 772
  · right
    rw [if_pos hlarge]
    obtain rfl | rfl | rfl | rfl : slot = 768 ∨ slot = 769 ∨ slot = 770 ∨ slot = 771 := by omega
    all_goals decide
  · left
    exact if_neg hlarge

section Start

variable (mem : Mem) (dir : ℕ) (memHigh physicalAllocStart : UInt32)

theorem initMemory_word {w : ℕ} (hw : w < 1024) :
    (initMemory mem dir memHigh physicalAllocStart).mem dir w =
      if w = 0 then 0
      else if w = 1023 then dir * 4096 ||| pageFlagPres ||| pageFlagWrt
      else bootPageDir w := if_pos ⟨rfl, hw⟩

theorem recursive_initMemory :
    Recursive (initMemory mem dir memHigh physicalAllocStart).mem dir := by
  have hlast := initMemory_word mem dir memHigh physicalAllocStart (show 1023 < 1024 by decide)
  rw [if_neg (by decide), if_pos rfl] at hlast
  refine ⟨?_, ?_⟩
  · rw [HasTable, hlast]
    refine ⟨present_or (Or.inl (present_or (Or.inr (by decide)))), ?_⟩
    simp only [large_or_iff, not_or]
    exact ⟨⟨not_large_of_aligned (Nat.mul_mod_left dir 4096), by decide⟩, by decide⟩
  · rw [tableOf, hlast, frameOf_or_low _ (by decide), frameOf_or_low _ (by decide)]
    exact Nat.mul_div_cancel dir (by decide)

/-- At the start the only table is the directory. -/
theorem initMemory_table {i : ℕ} (hi : i < 1024)
    (htable : HasTable (initMemory mem dir memHigh physicalAllocStart).mem dir i) : i = 1023 := by
  by_contra hne
  have hentry := initMemory_word mem dir memHigh physicalAllocStart hi
  by_cases hzero : i = 0
  · rw [if_pos hzero] at hentry
    rw [HasTable, hentry] at htable
    exact absurd htable.1 (by decide)
  · rw [if_neg hzero, if_neg hne] at hentry
    rw [HasTable, hentry] at htable
    rcases bootPageDir_cases hzero with hnone | hlarge
    · rw [hnone] at htable
      exact absurd htable.1 (by decide)
    · exact htable.2 hlarge

theorem ok_start : (Noted.start mem dir memHigh physicalAllocStart).Ok where
  recursive := recursive_initMemory mem dir memHigh physicalAllocStart
  apart _ _ hi hj hti htj _ := (initMemory_table mem dir memHigh physicalAllocStart hi hti).trans
    (initMemory_table mem dir memHigh physicalAllocStart hj htj).symm
  low _ _ h := nomatch h
  translated := ⟨nofun, nofun, nofun⟩

end Start

/-- A slot that may be mapped is one that a table can be put in. -/
theorem MapGood.slotOk {s : Noted} {virtualAddr physicalAddr flags : ℕ} {heap : Bool}
    (hgood : MapGood s virtualAddr physicalAddr flags heap) (hok : s.Ok) :
    SlotOk s.paging (virtualAddr / 4194304) flags where
  notLarge := hgood.notLarge
  low := hgood.low
  oldTable htable hself := by
    have hslot := hgood.slot
    have hlast := hok.apart _ 1023 (by omega) (by decide) htable hok.recursive.table
      (hself.trans hok.recursive.self.symm)
    omega
  newTable hnone := by
    refine ⟨(hgood.newTable hnone).1, fun addr pmm halloc hself => ?_⟩
    refine ((hgood.newTable hnone).2 addr pmm halloc).1 1023 (by decide) hok.recursive.table ?_
    rw [hok.recursive.self, hself]

/-- The mapping in force after one more. -/
theorem inForce_cons (mapping : Mapping) (history : List Mapping) (page : ℕ) :
    inForce (mapping :: history) page =
      if mapping.page = page then some mapping else inForce history page := by
  unfold inForce
  rw [List.find?_cons]
  by_cases h : mapping.page = page <;> simp [h]

/-- What mapping a page does to the tables: one entry is written, in the slot's table or in a
new one that holds nothing else, and the tables of the other slots stay. -/
structure Mapped (m m' : Paging) (slot index value : ℕ) : Prop where
  dir : m'.dir = m.dir
  other : ∀ i, i ≠ slot → m'.mem m.dir i = m.mem m.dir i
  hasTable : HasTable m'.mem m.dir slot
  fresh : ∀ i, i < 1024 → i ≠ slot → HasTable m.mem m.dir i →
    tableOf m.mem m.dir i ≠ tableOf m'.mem m.dir slot
  kept : ∀ i w, i < 1023 → i ≠ slot → HasTable m.mem m.dir i →
    m'.mem (tableOf m.mem m.dir i) w = m.mem (tableOf m.mem m.dir i) w
  own : HasTable m.mem m.dir slot → tableOf m'.mem m.dir slot = tableOf m.mem m.dir slot ∧
    ∀ w, w ≠ index → m'.mem (tableOf m.mem m.dir slot) w = m.mem (tableOf m.mem m.dir slot) w
  written : m'.mem (tableOf m'.mem m.dir slot) index = value
  newTable : ¬ HasTable m.mem m.dir slot → ¬ Present (m.mem m.dir slot) ∧
    ∃ addr, pmmAllocPageFrame m.pmm = some (addr, m'.pmm) ∧
      tableOf m'.mem m.dir slot = frameOf addr
  empty : ¬ HasTable m.mem m.dir slot → ∀ w, w < 1024 → w ≠ index →
    m'.mem (tableOf m'.mem m.dir slot) w = 0

/-- A page that may be mapped is mapped. -/
theorem MapGood.mapped {s : Noted} {m : Paging} {virtualAddr physicalAddr flags : ℕ} {heap : Bool}
    (hgood : MapGood s virtualAddr physicalAddr flags heap) (hok : s.Ok)
    (h : memMapPage s.paging virtualAddr physicalAddr flags = some m) :
    Mapped s.paging m (virtualAddr / 4194304) (virtualAddr / 4096 % 1024)
      (physicalAddr ||| pageFlagPres ||| flags) := by
  have hslotOk := hgood.slotOk hok
  obtain ⟨ensured, hensured, hdir, -, hpmm, hmem⟩ :=
    memMapPage_spec hgood.slot hok.recursive hslotOk h
  generalize hslot : virtualAddr / 4194304 = slot at hensured hmem hslotOk ⊢
  have hlast : slot < 1023 := hslot ▸ hgood.slot
  -- the slot's table is not the directory, so writing to it leaves the directory
  have hnotDir : tableOf ensured.mem s.paging.dir slot ≠ s.paging.dir := by
    rcases hensured.frames with ⟨htable, -, hsame, -⟩ | ⟨hnone, addr, halloc, hnew, -, -⟩
    · rw [hsame]
      exact hslotOk.oldTable htable
    · rw [hnew]
      exact (hslotOk.newTable hnone).2 addr _ halloc
  have hword (i : ℕ) : m.mem s.paging.dir i = ensured.mem s.paging.dir i := by
    rw [hmem]
    exact ensured.mem.set_of_ne_frame hnotDir.symm ..
  have htableOf : tableOf m.mem s.paging.dir slot = tableOf ensured.mem s.paging.dir slot :=
    congrArg frameOf (hword slot)
  have hvalue : physicalAddr ||| pageFlagPres ||| s.paging.oldEntry (virtualAddr / 4096) ||| flags =
      physicalAddr ||| pageFlagPres ||| flags := by
    rw [← hgood.oldEntry, ← Nat.or_assoc (s.paging.oldEntry _), Nat.or_comm (s.paging.oldEntry _)]
  have hfresh (i : ℕ) (hi : i < 1024) (hne : i ≠ slot)
      (htable : HasTable s.paging.mem s.paging.dir i) :
      tableOf s.paging.mem s.paging.dir i ≠ tableOf m.mem s.paging.dir slot := by
    rw [htableOf]
    rcases hensured.frames with ⟨hold, -, hsame, -⟩ | ⟨hnone, addr, halloc, hnew, -, -⟩
    · rw [hsame]
      exact fun heq => hne (hok.apart i slot hi (by omega) htable hold heq)
    · rw [hnew]
      exact ((hgood.newTable (hslot ▸ hnone)).2 addr _ halloc).1 i hi htable
  have hstays (i w : ℕ) (hi : i < 1023) (hne : i ≠ slot)
      (htable : HasTable s.paging.mem s.paging.dir i) :
      m.mem (tableOf s.paging.mem s.paging.dir i) w =
        s.paging.mem (tableOf s.paging.mem s.paging.dir i) w := by
    have hother := hfresh i (by omega) hne htable
    have hdirNe : tableOf s.paging.mem s.paging.dir i ≠ s.paging.dir := fun hself => by
      have := hok.apart i 1023 (by omega) (by decide) htable hok.recursive.table
        (hself.trans hok.recursive.self.symm)
      omega
    rw [htableOf] at hother
    rw [hmem, ensured.mem.set_of_ne_frame hother]
    rcases hensured.frames with ⟨-, -, -, hframes⟩ | ⟨-, addr, -, hnew, -, hframes⟩
    · exact hframes _ w hdirNe
    · exact hframes _ w hdirNe (hnew ▸ hother)
  refine ⟨hdir, fun i hi => (hword i).trans (hensured.other i hi), ?_, hfresh, hstays,
    fun hold => ?_, ?_, fun hnot => ?_, fun hnot w hbound hw => ?_⟩
  · rw [HasTable, hword]
    exact hensured.hasTable
  · rcases hensured.frames with ⟨-, -, hsame, hframes⟩ | ⟨hnone, -⟩
    · refine ⟨htableOf.trans hsame, fun w hw => ?_⟩
      rw [hmem, ensured.mem.set_of_ne_word hw]
      exact hframes _ w (hslotOk.oldTable hold)
    · exact absurd hold.1 hnone
  · rw [htableOf, hmem, Mem.set_self, hvalue]
  · rcases hensured.frames with ⟨hold, -⟩ | ⟨hnone, addr, halloc, hnew, -, -⟩
    · exact absurd hold hnot
    · exact ⟨hnone, addr, hpmm ▸ halloc, htableOf.trans hnew⟩
  · rcases hensured.frames with ⟨hold, -⟩ | ⟨-, addr, -, hnew, hzero, -⟩
    · exact absurd hold hnot
    · rw [htableOf, hmem, ensured.mem.set_of_ne_word hw, hnew]
      exact hzero w hbound

/-- **A page that may be mapped is mapped, and the others stay.** -/
theorem Noted.Ok.map {s s' : Noted} (hok : s.Ok) {virtualAddr physicalAddr flags : ℕ} {heap : Bool}
    (hgood : MapGood s virtualAddr physicalAddr flags heap)
    (h : s.map virtualAddr physicalAddr flags heap = some s') : s'.Ok := by
  obtain ⟨m, hmap, rfl⟩ := Option.map_eq_some_iff.mp h
  have hmapped := hgood.mapped hok hmap
  have hpage : virtualAddr / 4096 / 1024 = virtualAddr / 4194304 := by omega
  have hlast := hgood.slot
  have hnewTable := hgood.newTable
  obtain ⟨hrec, hapart, hlow, hentry, -, hheap⟩ := hok
  generalize virtualAddr / 4194304 = slot at hmapped hpage hlast hnewTable
  generalize virtualAddr / 4096 = page₀ at hmapped hpage ⊢
  -- tables other than the slot's are those from before
  have hother (i : ℕ) (hi : i ≠ slot) :
      (HasTable m.mem s.paging.dir i ↔ HasTable s.paging.mem s.paging.dir i) ∧
        tableOf m.mem s.paging.dir i = tableOf s.paging.mem s.paging.dir i := by
    rw [HasTable, HasTable, tableOf, tableOf, hmapped.other i hi]
    exact ⟨Iff.rfl, rfl⟩
  have hentry' (page : ℕ) (mapping : Mapping)
      (hforce : inForce (⟨page₀, physicalAddr, flags, heap⟩ :: s.history) page = some mapping) :
      (page / 1024 < 1023 ∧ mapping.flags < 4096) ∧ HasTable m.mem s.paging.dir (page / 1024) ∧
        m.mem (tableOf m.mem s.paging.dir (page / 1024)) (page % 1024) =
          mapping.phys ||| pageFlagPres ||| mapping.flags := by
    rw [inForce_cons] at hforce
    by_cases hsame : page₀ = page
    · rw [if_pos hsame] at hforce
      obtain rfl := Option.some.inj hforce
      subst hsame
      rw [hpage]
      exact ⟨⟨hlast, hgood.low⟩, hmapped.hasTable, hmapped.written⟩
    · rw [if_neg hsame] at hforce
      obtain ⟨htable, hword⟩ := hentry page mapping hforce
      refine ⟨hlow page mapping hforce, ?_⟩
      by_cases hslot : page / 1024 = slot
      · have hindex : page % 1024 ≠ page₀ % 1024 := by omega
        rw [hslot] at htable hword ⊢
        obtain ⟨htableOf, hown⟩ := hmapped.own htable
        rw [htableOf, hown _ hindex]
        exact ⟨hmapped.hasTable, hword⟩
      · obtain ⟨hiff, htableOf⟩ := hother _ hslot
        rw [htableOf, hmapped.kept _ _ (hlow page mapping hforce).1 hslot htable]
        exact ⟨hiff.mpr htable, hword⟩
  have hrec' : Recursive m.mem s.paging.dir := hrec.of_eq (hmapped.other 1023 (by omega))
  have hapart' (i j : ℕ) (hi : i < 1024) (hj : j < 1024) (hti : HasTable m.mem s.paging.dir i)
      (htj : HasTable m.mem s.paging.dir j)
      (heq : tableOf m.mem s.paging.dir i = tableOf m.mem s.paging.dir j) : i = j := by
    by_cases hislot : i = slot
    · by_cases hjslot : j = slot
      · rw [hislot, hjslot]
      · obtain ⟨hiff, htableOf⟩ := hother j hjslot
        rw [hislot, htableOf] at heq
        exact absurd heq.symm (hmapped.fresh j hj hjslot (hiff.mp htj))
    · obtain ⟨hiff, htableOf⟩ := hother i hislot
      by_cases hjslot : j = slot
      · rw [hjslot, htableOf] at heq
        exact absurd heq (hmapped.fresh i hi hislot (hiff.mp hti))
      · obtain ⟨hiff', htableOf'⟩ := hother j hjslot
        rw [htableOf, htableOf'] at heq
        exact hapart i j hi hj (hiff.mp hti) (hiff'.mp htj) heq
  have hheap' (page : ℕ) (mapping : Mapping)
      (hforce : inForce (⟨page₀, physicalAddr, flags, heap⟩ :: s.history) page = some mapping)
      (hof : mapping.heap = true) : NoTable m (frameOf mapping.phys) := by
    intro i hi hti
    rw [hmapped.dir] at hti ⊢
    rw [inForce_cons] at hforce
    by_cases hislot : i = slot
    · -- the slot's own table: an old one, or one on the frame handed out
      subst hislot
      by_cases hold : HasTable s.paging.mem s.paging.dir i
      · rw [(hmapped.own hold).1]
        by_cases hsame : page₀ = page
        · rw [if_pos hsame] at hforce
          obtain rfl := Option.some.inj hforce
          exact hgood.heap hof i hi hold
        · rw [if_neg hsame] at hforce
          exact hheap page mapping hforce hof i hi hold
      · obtain ⟨hnone, addr, halloc, hnew⟩ := hmapped.newTable hold
        obtain ⟨-, hnoHeap, hnotSelf⟩ := (hnewTable hnone).2 addr _ halloc
        rw [hnew]
        by_cases hsame : page₀ = page
        · rw [if_pos hsame] at hforce
          obtain rfl := Option.some.inj hforce
          exact hnotSelf hof
        · rw [if_neg hsame] at hforce
          exact Ne.symm (hnoHeap page mapping hforce hof)
    · obtain ⟨hiff, htableOf⟩ := hother i hislot
      rw [htableOf]
      by_cases hsame : page₀ = page
      · rw [if_pos hsame] at hforce
        obtain rfl := Option.some.inj hforce
        exact hgood.heap hof i hi (hiff.mp hti)
      · rw [if_neg hsame] at hforce
        exact hheap page mapping hforce hof i hi (hiff.mp hti)
  have hdir := hmapped.dir
  refine ⟨?_, ?_, fun page mapping hforce => (hentry' page mapping hforce).1, ?_, ?_, hheap'⟩
  · rw [hdir]
    exact hrec'
  · rw [hdir]
    exact hapart'
  · rw [hdir]
    exact fun page mapping hforce => (hentry' page mapping hforce).2
  · rw [hdir]
    intro page mapping hforce
    obtain ⟨⟨-, hflags⟩, htable, hword⟩ := hentry' page mapping hforce
    rw [walk_of_hasTable htable, hword,
      if_pos (present_or (Or.inl (present_or (Or.inr (by decide))))), frameOf_or_low _ hflags,
      frameOf_or_low _ (by decide)]

/-- A frame handed out changes nothing of that. -/
theorem Noted.Ok.withPmm {s : Noted} (hok : s.Ok) (pmm : Pmm) : (s.withPmm pmm).Ok := by
  obtain ⟨hrec, hapart, hlow, hentry, hframe, hheap⟩ := hok
  exact ⟨hrec, hapart, hlow, hentry, hframe, hheap⟩

/-- A heap that may grow grows. -/
theorem Noted.Ok.grow {oldPageTop left i : ℕ} {s s' : Noted} (hok : s.Ok)
    (hgood : GrowGood oldPageTop left i s) (h : s.grow oldPageTop left i = some s') : s'.Ok := by
  induction left generalizing i s with
  | zero =>
      obtain rfl := Option.some.inj h
      exact hok
  | succ left ih =>
      obtain ⟨phys, hphys, h⟩ := Option.bind_eq_some_iff.mp h
      obtain ⟨next, hnext, h⟩ := Option.bind_eq_some_iff.mp h
      obtain ⟨hpage, hrest⟩ := hgood phys hphys
      exact ih ((hok.withPmm phys.2).map hpage hnext) (hrest next hnext) h

/-- A call that goes well keeps the invariant. -/
theorem Noted.Ok.step {s s' : Noted} {call : Call} (hok : s.Ok) (hgood : call.Good s)
    (h : s.step call = some s') : s'.Ok := by
  cases call with
  | map virtualAddr physicalAddr flags => exact hok.map hgood h
  | heap newSize =>
      obtain ⟨diff, hdiff, hgrow⟩ := Option.bind_eq_some_iff.mp h
      exact hok.grow (hgood diff hdiff) hgrow

/-- **What is mapped stays mapped.** In every run of calls that go well, every page translates
to the frame it was last mapped to, through an entry that holds this frame and the flags and
nothing else, and no table lies on a page of the heap. -/
theorem run_translated {mem : Mem} {dir : ℕ} {memHigh physicalAllocStart : UInt32} {s : Noted}
    (hrun : Runs Noted.step Call.Good (Noted.start mem dir memHigh physicalAllocStart) s) :
    s.Translated := by
  have hok : s.Ok := hrun.invariant (I := Noted.Ok) (fun _ _ _ => Noted.Ok.step)
    (ok_start mem dir memHigh physicalAllocStart)
  exact hok.translated

/-! ## The calls of `kmain` -/

/-- The state in which `kmain` first maps a page: sixteen megabytes, the directory in a frame
below the second. -/
def booted : Noted := .start (fun _ _ => 0) 0x110 0x1000000 0x200000

theorem ok_booted : booted.Ok := ok_start _ 0x110 _ _

/-- The frames that `kmain` is handed out: the first two in turn. -/
theorem booted_alloc (n : ℕ) :
    pmmAllocPageFrame (cycled booted.paging.pmm n) =
      some ((512 + n % 2) * 0x1000, cycled booted.paging.pmm (n + 1)) := by
  have hstart : booted.paging.pmm.start = 512 / 8 := by decide +kernel
  have h := pmmAllocPageFrame_cycled (m := booted.paging.pmm) rfl (by decide +kernel)
    (by decide +kernel) n
  rw [cycleAddr, hstart] at h
  exact h

/-- After `n` frames a page may be mapped in an empty slot, on a frame that is not the next. -/
theorem mapGood_booted {n virtualAddr physicalAddr flags : ℕ} {heap : Bool}
    (hslot : virtualAddr / 4194304 < 1023)
    (hempty : booted.paging.mem 0x110 (virtualAddr / 4194304) = 0)
    (haligned : physicalAddr % 4096 = 0) (hlow : flags < 4096) (hflags : ¬ Large flags)
    (hphys : heap = true → frameOf physicalAddr ≠ 512 + n % 2 ∧ frameOf physicalAddr ≠ 0x110) :
    MapGood (booted.withPmm (cycled booted.paging.pmm n)) virtualAddr physicalAddr flags heap := by
  have hnone : ¬ Present (booted.paging.mem 0x110 (virtualAddr / 4194304)) := by
    rw [hempty]
    decide
  have hnoTable (frame : ℕ) (hframe : frame ≠ 0x110) :
      NoTable (booted.withPmm (cycled booted.paging.pmm n)).paging frame := by
    intro i hi htable
    obtain rfl := initMemory_table (fun _ _ => 0) 0x110 0x1000000 0x200000 hi htable
    exact ok_booted.recursive.self.trans_ne hframe.symm
  refine ⟨hslot, fun hlarge => hnone hlarge.1, haligned, hlow, ?_, fun _ => ⟨hflags, ?_⟩,
    fun hheap => hnoTable _ (hphys hheap).2⟩
  · have hold : (booted.withPmm (cycled booted.paging.pmm n)).paging.oldEntry
        (virtualAddr / 4096) = 0 := by
      rw [Paging.oldEntry, show virtualAddr / 4096 / 1024 = virtualAddr / 4194304 by omega]
      exact if_neg hnone
    rw [hold, Nat.zero_or]
  · intro addr pmm halloc
    rw [show (booted.withPmm (cycled booted.paging.pmm n)).paging.pmm =
      cycled booted.paging.pmm n from rfl, booted_alloc] at halloc
    injection halloc with halloc
    injection halloc with haddr
    have hframe : frameOf addr = 512 + n % 2 := by
      rw [← haddr]
      exact Nat.mul_div_cancel _ (by decide)
    rw [hframe]
    exact ⟨hnoTable _ (by omega), nofun, fun hheap => (hphys hheap).1.symm⟩

/-- A page that may be mapped there is mapped. -/
theorem exists_map_booted {n virtualAddr physicalAddr flags : ℕ} {heap : Bool}
    (hgood : MapGood (booted.withPmm (cycled booted.paging.pmm n)) virtualAddr physicalAddr flags
      heap) : ∃ s', (booted.withPmm (cycled booted.paging.pmm n)).map virtualAddr physicalAddr flags
        heap = some s' := by
  have hok := ok_booted.withPmm (cycled booted.paging.pmm n)
  obtain ⟨m', hmap⟩ := exists_memMapPage hgood.slot hok.recursive (hgood.slotOk hok)
    ⟨_, booted_alloc n⟩
  exact ⟨_, Option.map_eq_some_iff.mpr ⟨m', hmap, rfl⟩⟩

/-- The heap's first page gets frame 512, and its table frame 513. -/
theorem mapGood_heap_booted : MapGood (booted.withPmm (cycled booted.paging.pmm 1)) 0xD0000000
    0x200000 pageFlagWrt true :=
  mapGood_booted (by decide) (by decide) (by decide) (by decide) (by decide) (fun _ => by decide)

/-- `kmain` makes the heap. -/
theorem exists_heap_booted : ∃ m,
    memMapPage (booted.withPmm (cycled booted.paging.pmm 1)).paging 0xD0000000 0x200000
      pageFlagWrt = some m ∧
    booted.step (.heap 0x1000) = some ⟨m, [⟨0xD0000, 0x200000, pageFlagWrt, true⟩]⟩ ∧
    m.pmm = cycled booted.paging.pmm 2 := by
  obtain ⟨s, hmap⟩ := exists_map_booted mapGood_heap_booted
  obtain ⟨m, hpage, rfl⟩ := Option.map_eq_some_iff.mp hmap
  have hdiff : heapDiff booted.paging 0x1000 = some 1 := by decide +kernel
  have htop : ceilDiv booted.paging.heapSize 0x1000 = 0 := by decide +kernel
  have hfirst := booted_alloc 0
  rw [cycled_zero rfl] at hfirst
  have hpmm : m.pmm = cycled booted.paging.pmm 2 := by
    have hnot : ¬ HasTable (booted.withPmm (cycled booted.paging.pmm 1)).paging.mem
        (booted.withPmm (cycled booted.paging.pmm 1)).paging.dir (0xD0000000 / 4194304) := by
      decide
    obtain ⟨-, addr, halloc, -⟩ :=
      (mapGood_heap_booted.mapped (ok_booted.withPmm _) hpage).newTable hnot
    exact (Prod.mk.inj (Option.some.inj (halloc.symm.trans (booted_alloc 1)))).2
  refine ⟨m, hpage, ?_, hpmm⟩
  rw [Noted.step, hdiff, htop, Option.bind_some, Noted.grow, hfirst, Option.bind_some]
  exact (congrArg (fun next => next.bind (Noted.grow 0 0 1)) hmap).trans rfl

/-- A heap of one page, and the page of the screen mapped behind it: the slot has its table by
then, so that no frame is handed out again. -/
theorem run_translated_booted : ∃ s, Runs Noted.step Call.Good booted s ∧
    walk s.paging.mem s.paging.dir 0xD0000 = some 512 ∧
    walk s.paging.mem s.paging.dir 0xD0001 = some 0xB8 := by
  have hgood : Call.Good booted (.heap 0x1000) := by
    intro diff hdiff
    obtain rfl : 1 = diff := by
      rw [show heapDiff booted.paging (0x1000 : ℤ) = some 1 by decide +kernel] at hdiff
      exact Option.some.inj hdiff
    intro phys hphys
    have hfirst := booted_alloc 0
    rw [cycled_zero rfl] at hfirst
    obtain rfl := Option.some.inj (hfirst.symm.trans hphys)
    exact ⟨mapGood_heap_booted, fun _ _ => trivial⟩
  obtain ⟨m, hpage, hheap, hpmm⟩ := exists_heap_booted
  have hnot : ¬ HasTable (booted.withPmm (cycled booted.paging.pmm 1)).paging.mem
      (booted.withPmm (cycled booted.paging.pmm 1)).paging.dir (0xD0000000 / 4194304) := by decide
  have hmapped := mapGood_heap_booted.mapped (ok_booted.withPmm _) hpage
  have hok := ok_booted.step hgood hheap
  -- the table of the slot is there, and the second page's entry in it is still zero
  have htable : HasTable m.mem m.dir (0xD0001000 / 4194304) := hmapped.dir ▸ hmapped.hasTable
  have hold : m.oldEntry (0xD0001000 / 4096) = 0 := by
    have hzero := hmapped.empty hnot 1 (by decide) (by decide)
    rw [← hmapped.dir] at hzero
    rw [Paging.oldEntry]
    split
    · exact hzero
    · rfl
  have hgood₂ : MapGood ⟨m, [⟨0xD0000, 0x200000, pageFlagWrt, true⟩]⟩ 0xD0001000 0xB8000 3
      false := by
    refine ⟨by decide, fun h => htable.2 h.2, by decide, by decide, ?_,
      fun h => absurd htable.1 h, nofun⟩
    rw [hold]
    decide
  obtain ⟨m₂, hmap₂⟩ : ∃ m₂, memMapPage m 0xD0001000 0xB8000 3 = some m₂ :=
    exists_memMapPage (by decide) hok.recursive (hgood₂.slotOk hok) ⟨_, hpmm ▸ booted_alloc 2⟩
  have hrun : Runs Noted.step Call.Good booted
      ⟨m₂, [⟨0xD0001, 0xB8000, 3, false⟩, ⟨0xD0000, 0x200000, pageFlagWrt, true⟩]⟩ :=
    .tail (.single ⟨.heap 0x1000, hgood, hheap⟩) ⟨.map 0xD0001000 0xB8000 3, hgood₂,
      Option.map_eq_some_iff.mpr ⟨m₂, hmap₂, rfl⟩⟩
  have hframe := (run_translated hrun).frame
  exact ⟨_, hrun, hframe 0xD0000 ⟨0xD0000, 0x200000, pageFlagWrt, true⟩ rfl,
    hframe 0xD0001 ⟨0xD0001, 0xB8000, 3, false⟩ rfl⟩

/-- `kmain` makes the heap and maps the page of the screen: the table of the second lies on
the frame of the first. -/
theorem not_translated_booted : ∃ s, Runs Noted.step (fun _ _ => True) booted s ∧
    s.history.length = 2 ∧ ¬ s.Translated := by
  have hok := ok_booted.withPmm (cycled booted.paging.pmm 1)
  have hgood := mapGood_heap_booted
  obtain ⟨m, hpage, hheap, hpmm⟩ := exists_heap_booted
  have hmapped := hgood.mapped hok hpage
  have hok' := hok.map hgood (Option.map_eq_some_iff.mpr ⟨m, hpage, rfl⟩)
  have hempty : m.mem m.dir 0 = 0 := by
    rw [hmapped.dir, hmapped.other 0 (by decide)]
    decide
  -- the next table gets frame 512 again
  have hnone : ¬ Present (m.mem m.dir (0xB8000 / 4194304)) := by
    rw [show 0xB8000 / 4194304 = 0 from rfl, hempty]
    decide
  have halloc : pmmAllocPageFrame m.pmm = some (512 * 0x1000, cycled booted.paging.pmm 3) :=
    hpmm ▸ booted_alloc 2
  have hdir : m.dir = 0x110 := hmapped.dir
  have hslot : SlotOk m (0xB8000 / 4194304) 3 := by
    refine ⟨fun h => hnone h.1, by decide, fun h => absurd h.1 hnone, fun _ => ⟨by decide, ?_⟩⟩
    intro addr pmm h
    rw [← (Prod.mk.inj (Option.some.inj (halloc.symm.trans h))).1, hdir]
    decide
  obtain ⟨m₂, hmap₂⟩ : ∃ m₂, memMapPage m 0xB8000 0xB8000 3 = some m₂ :=
    exists_memMapPage (by decide) hok'.recursive hslot ⟨_, halloc⟩
  obtain ⟨ensured, hensured, hdir₂, -, -, hmem⟩ :=
    memMapPage_spec (by decide) hok'.recursive hslot hmap₂
  have hnew : tableOf ensured.mem m.dir (0xB8000 / 4194304) = 512 := by
    rcases hensured.frames with ⟨hold, -⟩ | ⟨-, addr, haddr, hnew, -⟩
    · exact absurd hold.1 hnone
    · rw [hnew, ← (Prod.mk.inj (Option.some.inj (halloc.symm.trans haddr))).1]
      decide
  have hword : m₂.mem m.dir (0xB8000 / 4194304) = ensured.mem m.dir (0xB8000 / 4194304) := by
    rw [hmem]
    refine ensured.mem.set_of_ne_frame ?_ ..
    rw [hnew, hdir]
    decide
  refine ⟨⟨m₂, ⟨0xB8, 0xB8000, 3, false⟩ :: ⟨0xD0000, 0x200000, pageFlagWrt, true⟩ :: []⟩, ?_, rfl,
    fun h => ?_⟩
  · refine .tail (.single ⟨.heap 0x1000, trivial, hheap⟩) ⟨.map 0xB8000 0xB8000 3, trivial, ?_⟩
    exact Option.map_eq_some_iff.mpr ⟨m₂, hmap₂, rfl⟩
  · have hnoTable := h.heap 0xD0000 ⟨0xD0000, 0x200000, pageFlagWrt, true⟩ rfl rfl
      (0xB8000 / 4194304) (by decide)
    rw [show (⟨m₂, _⟩ : Noted).paging.dir = m.dir from hdir₂, HasTable, tableOf, hword] at hnoTable
    exact hnoTable hensured.hasTable hnew

end MasterOS.Memory
