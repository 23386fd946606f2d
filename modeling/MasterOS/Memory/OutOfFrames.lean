/-
# When no frame is left

`pmmAllocPageFrame` reports that no frame is left by the address 0, which its callers take
for a frame. `memMapPage` puts a new table on frame 0, and `changeHeapSize` maps its pages
there. The heap comes away unharmed only where its pages have entries already: then the
address 0 adds nothing to them.
-/

import MasterOS.Memory.Heap

namespace MasterOS.Memory

open MasterOS.Device MasterOS.Math

/-! ## Calls that find no frame -/

/-- No frame is left: the allocator returns 0 and does nothing. -/
def NoFrames (pmm : Pmm) : Prop := pmmAllocPageFrame pmm = some (0, pmm)

/-- `memMapPage` asks for a frame for a new table, and none is left. -/
def MapStarves (m : Paging) (virtualAddr : ℕ) : Prop :=
  ¬ Present (m.mem m.dir (virtualAddr / 4194304)) ∧ NoFrames m.pmm

/-- Somewhere in the loop of `changeHeapSize` a frame is asked for, and none is left. -/
def GrowStarves (oldPageTop : ℕ) : (left i : ℕ) → Paging → Prop
  | 0, _, _ => False
  | left + 1, i, m => NoFrames m.pmm ∨
      ∃ phys, pmmAllocPageFrame m.pmm = some phys ∧
        (MapStarves { m with pmm := phys.2 } (heapAddr oldPageTop i) ∨
          ∃ next, memMapPage { m with pmm := phys.2 } (heapAddr oldPageTop i) phys.1 pageFlagWrt =
            some next ∧ GrowStarves oldPageTop left (i + 1) next)

/-- During a call a frame is asked for, and none is left. -/
def Call.Starves (m : Paging) : Call → Prop
  | .map virtualAddr _ _ => MapStarves m virtualAddr.toNat
  | .heap newSize => ∃ diff, heapDiff m newSize = some diff ∧
      GrowStarves (ceilDiv m.heapSize 0x1000) diff 0 m

/-! ## What should not happen -/

/-- An entry refers to frame 0. -/
def ToFrame0 (entry : ℕ) : Prop := Present entry ∧ frameOf entry = 0

/-- No entry of the directory or of a table comes to refer to frame 0, and every page keeps
its frame. -/
structure Unharmed (m m' : Paging) : Prop where
  directory : ∀ slot < 1024, ToFrame0 (m'.mem m.dir slot) → ToFrame0 (m.mem m.dir slot)
  tables : ∀ slot < 1024, HasTable m.mem m.dir slot → ∀ word < 1024,
    ToFrame0 (m'.mem (tableOf m.mem m.dir slot) word) →
      ToFrame0 (m.mem (tableOf m.mem m.dir slot) word)
  mappings : ∀ page frame, walk m.mem m.dir page = some frame →
    walk m'.mem m.dir page = some frame

/-- The tables as `initMemory` leaves them and as calls that go well keep them: the directory
points to itself and does not lie on frame 0, only the kernel has large pages, and a word of
the directory is present or zero. -/
structure KernelTables (m : Paging) : Prop where
  recursive : Recursive m.mem m.dir
  dir : m.dir ≠ 0
  large : ∀ slot < 1024, Large (m.mem m.dir slot) → 768 ≤ slot ∧ slot < 772
  zero : ∀ slot < 1024, ¬ Present (m.mem m.dir slot) → m.mem m.dir slot = 0
  heapSize : m.heapSize = 0

/-- An entry is present, or names a frame. -/
def Named (entry : ℕ) : Prop := Present entry ∨ frameOf entry ≠ 0

/-- The page has a table, and an entry there that is present or names a frame. -/
def HasEntry (m : Paging) (page : ℕ) : Prop :=
  Present (m.mem m.dir (page / 1024)) ∧
    Named (m.mem (tableOf m.mem m.dir (page / 1024)) (page % 1024))

/-- The calls that can do without the frame: `changeHeapSize` when each page that it maps has
an entry already. -/
def Call.CanDoWithout (m : Paging) : Call → Prop
  | .map _ _ _ => False
  | .heap newSize => ∀ diff, heapDiff m newSize = some diff →
      ∀ i < diff, HasEntry m (heapAddr 0 i / 4096)

/-! ## The tables -/

theorem kernelTables_initMemory {dir : ℕ} (hdir : dir ≠ 0) (mem : Mem)
    (memHigh physicalAllocStart : UInt32) :
    KernelTables (initMemory mem dir memHigh physicalAllocStart) where
  recursive := recursive_initMemory mem dir memHigh physicalAllocStart
  dir := hdir
  large slot hslot h := by
    have hlast := (recursive_initMemory mem dir memHigh physicalAllocStart).table.2
    have hword := initMemory_word mem dir memHigh physicalAllocStart hslot
    have hsame : slot ≠ 1023 := fun heq => hlast (heq ▸ h)
    by_contra hkernel
    rw [show (initMemory mem dir memHigh physicalAllocStart).dir = dir from rfl, hword,
      if_neg hsame] at h
    by_cases hzero : slot = 0
    · rw [if_pos hzero] at h
      exact absurd h (by decide)
    · rw [if_neg hzero, bootPageDir, if_neg hzero, if_neg hkernel] at h
      exact absurd h (by decide)
  zero slot hslot h := by
    have hlast := (recursive_initMemory mem dir memHigh physicalAllocStart).table.1
    have hword := initMemory_word mem dir memHigh physicalAllocStart hslot
    have hsame : slot ≠ 1023 := fun heq => h (heq ▸ hlast)
    rw [show (initMemory mem dir memHigh physicalAllocStart).dir = dir from rfl, hword,
      if_neg hsame] at h ⊢
    by_cases hzero : slot = 0
    · rw [if_pos hzero]
    · rw [if_neg hzero, bootPageDir, if_neg hzero] at h
      rw [if_neg hzero, bootPageDir, if_neg hzero]
      by_cases hkernel : 768 ≤ slot ∧ slot < 772
      · rw [if_pos hkernel] at h
        obtain rfl | rfl | rfl | rfl : slot = 768 ∨ slot = 769 ∨ slot = 770 ∨ slot = 771 := by omega
        all_goals exact absurd (by decide) h
      · exact if_neg hkernel
  heapSize := rfl

/-- Mapping a page that may be mapped keeps the tables so. -/
theorem KernelTables.map {s s' : Noted} {virtualAddr physicalAddr flags : ℕ} {heap : Bool}
    (hkernel : KernelTables s.paging) (hok : s.Ok)
    (hgood : MapGood s virtualAddr physicalAddr flags heap)
    (h : s.map virtualAddr physicalAddr flags heap = some s') : KernelTables s'.paging := by
  obtain ⟨m, hmap, rfl⟩ := Option.map_eq_some_iff.mp h
  have hmapped := hgood.mapped hok hmap
  have hslot := hgood.slot
  have hdir : m.dir = s.paging.dir := hmapped.dir
  dsimp only
  refine ⟨?_, ?_, fun slot hlt => ?_, fun slot hlt => ?_, ?_⟩
  · rw [hdir]
    exact hkernel.recursive.of_eq (hmapped.other 1023 (by omega))
  · rw [hdir]
    exact hkernel.dir
  · rw [hdir]
    by_cases hsame : slot = virtualAddr / 4194304
    · exact fun hlarge => absurd (hsame ▸ hlarge) hmapped.hasTable.2
    · rw [hmapped.other slot hsame]
      exact hkernel.large slot hlt
  · rw [hdir]
    by_cases hsame : slot = virtualAddr / 4194304
    · exact fun habsent => absurd hmapped.hasTable.1 (hsame ▸ habsent)
    · rw [hmapped.other slot hsame]
      exact hkernel.zero slot hlt
  · rw [memMapPage_heapSize hmap]
    exact hkernel.heapSize

theorem KernelTables.grow {oldPageTop left i : ℕ} {s s' : Noted} (hkernel : KernelTables s.paging)
    (hok : s.Ok) (hgood : GrowGood oldPageTop left i s) (h : s.grow oldPageTop left i = some s') :
    KernelTables s'.paging := by
  induction left generalizing i s with
  | zero =>
      obtain rfl := Option.some.inj h
      exact hkernel
  | succ left ih =>
      obtain ⟨phys, hphys, h⟩ := Option.bind_eq_some_iff.mp h
      obtain ⟨next, hnext, h⟩ := Option.bind_eq_some_iff.mp h
      obtain ⟨hpage, hrest⟩ := hgood phys hphys
      have hkernel' : KernelTables (s.withPmm phys.2).paging :=
        ⟨hkernel.recursive, hkernel.dir, hkernel.large, hkernel.zero, hkernel.heapSize⟩
      exact ih (hkernel'.map (hok.withPmm phys.2) hpage hnext)
        ((hok.withPmm phys.2).map hpage hnext) (hrest next hnext) h

/-- The tables are so in every run of calls that go well. -/
theorem run_kernelTables {mem : Mem} {dir : ℕ} {memHigh physicalAllocStart : UInt32} {s : Noted}
    (hdir : dir ≠ 0)
    (hrun : Runs Noted.step Call.Good (Noted.start mem dir memHigh physicalAllocStart) s) :
    KernelTables s.paging := by
  refine (hrun.invariant (I := fun s => s.Ok ∧ KernelTables s.paging)
    (fun s call s' hs hgood hstep => ⟨hs.1.step hgood hstep, ?_⟩)
    ⟨ok_start mem dir memHigh physicalAllocStart,
      kernelTables_initMemory hdir mem memHigh physicalAllocStart⟩).2
  cases call with
  | map virtualAddr physicalAddr flags => exact hs.2.map hs.1 hgood hstep
  | heap newSize =>
      obtain ⟨diff, hdiff, hgrow⟩ := Option.bind_eq_some_iff.mp hstep
      exact hs.2.grow hs.1 (hgood diff hdiff) hgrow

/-! ## The allocator -/

/-- A byte that the scan passes over. -/
def Passed (byte : UInt8) : Prop := byte = 0xFF ∨ clearBit byte = none

/-- A scan finds nothing, or takes the first clear bit of the first byte that has one. -/
theorem allocFrom_cases {m m' : Pmm} {left b addr : ℕ} (h : allocFrom m left b = some (addr, m')) :
    addr = 0 ∧ m' = m ∨ ∃ j i, b ≤ j ∧ j < b + left ∧ j < pmbSize ∧
      (∀ k, b ≤ k → k < j → Passed (m.pmb k)) ∧ i < 8 ∧
      m' = { m with
        pmb := Function.update m.pmb j (UInt8.ofNat (2 ^ i))
        totalAlloc := (m.totalAlloc + 1) % 2 ^ 32 } := by
  induction left generalizing b with
  | zero =>
      injection h with h
      injection h with haddr hm
      exact Or.inl ⟨haddr.symm, hm.symm⟩
  | succ left ih =>
      have hpass (hpassed : Passed (m.pmb b)) (h : allocFrom m left (b + 1) = some (addr, m')) :
          addr = 0 ∧ m' = m ∨ ∃ j i, b ≤ j ∧ j < b + (left + 1) ∧ j < pmbSize ∧
            (∀ k, b ≤ k → k < j → Passed (m.pmb k)) ∧ i < 8 ∧
            m' = { m with
              pmb := Function.update m.pmb j (UInt8.ofNat (2 ^ i))
              totalAlloc := (m.totalAlloc + 1) % 2 ^ 32 } := by
        rcases ih h with hnone | ⟨j, i, hle, hlt, hroom, hall, hi, hm⟩
        · exact Or.inl hnone
        · refine Or.inr ⟨j, i, by omega, by omega, hroom, fun k hk hkj => ?_, hi, hm⟩
          rcases Nat.eq_or_lt_of_le hk with rfl | hlt
          · exact hpassed
          · exact hall k hlt hkj
      rw [allocFrom] at h
      by_cases hroom : b < pmbSize
      · rw [if_pos hroom] at h
        by_cases hfull : m.pmb b = 0xFF
        · rw [if_pos hfull] at h
          exact hpass (Or.inl hfull) h
        · rw [if_neg hfull] at h
          cases hclear : clearBit (m.pmb b) with
          | none =>
              rw [hclear] at h
              exact hpass (Or.inr hclear) h
          | some i =>
              rw [hclear] at h
              injection h with h
              injection h with haddr hm
              have hi := List.mem_range.mp (List.mem_of_find?_eq_some hclear)
              exact Or.inr ⟨b, i, Nat.le_refl b, by omega, hroom, fun k hk hkb => by omega, hi,
                hm.symm⟩
      · rw [if_neg hroom] at h
        cases h

/-- A scan takes a bit when there is one. -/
theorem allocFrom_of_clear {m : Pmm} {left b j : ℕ} (hle : b ≤ j) (hlt : j < b + left)
    (hroom : j < pmbSize) (hpassed : ∀ k, b ≤ k → k < j → Passed (m.pmb k))
    (hj : ¬ Passed (m.pmb j)) : ∃ addr m', allocFrom m left b = some (addr, m') ∧
      m'.totalAlloc = (m.totalAlloc + 1) % 2 ^ 32 := by
  induction left generalizing b with
  | zero => omega
  | succ left ih =>
      rw [allocFrom, if_pos (Nat.lt_of_le_of_lt hle hroom)]
      rcases Nat.eq_or_lt_of_le hle with rfl | hbelow
      · rw [if_neg fun hfull => hj (Or.inl hfull)]
        cases hclear : clearBit (m.pmb b) with
        | none => exact absurd (Or.inr hclear) hj
        | some i => exact ⟨_, _, rfl, rfl⟩
      · have hrest := ih hbelow (by omega) fun k hk => hpassed k (Nat.le_of_succ_le hk)
        by_cases hfull : m.pmb b = 0xFF
        · rw [if_pos hfull]
          exact hrest
        · have hclear := (hpassed b (Nat.le_refl b) hbelow).resolve_left hfull
          rw [if_neg hfull, hclear]
          exact hrest

/-- Frames do not run out on the way: a byte that a frame was taken from is never full. -/
theorem NoFrames.of_alloc {pmm pmm' : Pmm} {addr : ℕ}
    (halloc : pmmAllocPageFrame pmm = some (addr, pmm')) (h : NoFrames pmm') : NoFrames pmm := by
  rcases allocFrom_cases halloc with ⟨rfl, rfl⟩ | ⟨j, i, hle, hlt, hroom, hpassed, hi, rfl⟩
  · exact halloc
  · have hone : ∀ i < 8, ¬ (UInt8.ofNat (2 ^ i) = 0xFF ∨
        clearBit (UInt8.ofNat (2 ^ i)) = none) := by decide
    have hbyte (k : ℕ) : Function.update pmm.pmb j (UInt8.ofNat (2 ^ i)) k =
        if k = j then UInt8.ofNat (2 ^ i) else pmm.pmb k := Function.update_apply _ _ _ _
    obtain ⟨addr', m', hagain, htotal⟩ := allocFrom_of_clear (m := { pmm with
        pmb := Function.update pmm.pmb j (UInt8.ofNat (2 ^ i))
        totalAlloc := (pmm.totalAlloc + 1) % 2 ^ 32 }) hle hlt hroom
      (fun k hk hkj => by
        dsimp only
        rw [hbyte, if_neg hkj.ne]
        exact hpassed k hk hkj)
      (by
        dsimp only
        rw [hbyte, if_pos rfl]
        exact hone i hi)
    have hsame := (Prod.mk.inj (Option.some.inj (hagain.symm.trans h))).2
    rw [hsame] at htotal
    dsimp only at htotal
    omega

/-! ## One page without a frame -/

/-- Mapping a page hands out one frame or none. -/
theorem memMapPage_pmm {m m' : Paging} {virtualAddr physicalAddr flags : ℕ}
    (h : memMapPage m virtualAddr physicalAddr flags = some m') :
    m'.pmm = m.pmm ∨ ∃ addr, pmmAllocPageFrame m.pmm = some (addr, m'.pmm) := by
  obtain ⟨ensured, hensure, h⟩ := Option.bind_eq_some_iff.mp h
  obtain ⟨old, -, h⟩ := Option.bind_eq_some_iff.mp h
  obtain ⟨mem, -, rfl⟩ := Option.map_eq_some_iff.mp h
  obtain ⟨entry, -, hensure⟩ := Option.bind_eq_some_iff.mp hensure
  split_ifs at hensure with hpresent huser
  · obtain ⟨set, -, rfl⟩ := Option.map_eq_some_iff.mp hensure
    exact Or.inl rfl
  · obtain rfl := Option.some.inj hensure
    exact Or.inl rfl
  · obtain ⟨frame, halloc, hensure⟩ := Option.bind_eq_some_iff.mp hensure
    obtain ⟨set, -, hensure⟩ := Option.bind_eq_some_iff.mp hensure
    obtain ⟨cleared, -, rfl⟩ := Option.map_eq_some_iff.mp hensure
    exact Or.inr ⟨frame.1, halloc⟩

/-- A loop during which the frames run out begins without one. -/
theorem GrowStarves.noFrames {oldPageTop left i : ℕ} {m : Paging}
    (h : GrowStarves oldPageTop left i m) : NoFrames m.pmm := by
  induction left generalizing i m with
  | zero => exact h.elim
  | succ left ih =>
      rcases h with hnone | ⟨phys, halloc, hmap | ⟨next, hnext, hrest⟩⟩
      · exact hnone
      · exact hmap.2.of_alloc halloc
      · have hafter : NoFrames phys.2 := by
          rcases memMapPage_pmm hnext with hsame | ⟨addr, hmore⟩
          · have hlater := ih hrest
            rw [hsame] at hlater
            exact hlater
          · exact (ih hrest).of_alloc hmore
        exact hafter.of_alloc halloc

/-- With a table in the slot only its entry is written. -/
theorem memMapPage_of_present {m : Paging} {virtualAddr physicalAddr : ℕ}
    (hrec : Recursive m.mem m.dir) (hslot : virtualAddr / 4194304 < 1024)
    (hpresent : Present (m.mem m.dir (virtualAddr / 4194304))) :
    memMapPage m virtualAddr physicalAddr pageFlagWrt = some { m with
      mem := m.mem.set (tableOf m.mem m.dir (virtualAddr / 4194304)) (virtualAddr / 4096 % 1024)
        (physicalAddr ||| pageFlagPres ||| m.mem (tableOf m.mem m.dir (virtualAddr / 4194304))
          (virtualAddr / 4096 % 1024) ||| pageFlagWrt)
      memNumVpages := m.memNumVpages + 1 } :=
  memMapPage_of_table hrec hslot hpresent rfl

/-- Without a table in the slot, and without a frame, the table goes to frame 0. -/
theorem memMapPage_of_absent {m : Paging} {virtualAddr physicalAddr flags : ℕ}
    (hrec : Recursive m.mem m.dir) (hslot : virtualAddr / 4194304 < 1024)
    (habsent : ¬ Present (m.mem m.dir (virtualAddr / 4194304))) (hnone : NoFrames m.pmm)
    (hdir : m.dir ≠ 0) (hlow : flags < 4096) :
    ∃ m', memMapPage m virtualAddr physicalAddr flags = some m' ∧ m'.dir = m.dir ∧
      m'.pmm = m.pmm ∧ ToFrame0 (m'.mem m.dir (virtualAddr / 4194304)) ∧
      ∀ w, w ≠ virtualAddr / 4194304 → m'.mem m.dir w = m.mem m.dir w := by
  have hlast : 1023 ≠ virtualAddr / 4194304 := fun heq => habsent (heq ▸ hrec.table.1)
  generalize hvalue : 0 ||| pageFlagPres ||| pageFlagWrt ||| pageFlagOwner ||| flags = value
  have hto : ToFrame0 value := by
    rw [← hvalue]
    refine ⟨present_or (Or.inl (by decide)), ?_⟩
    rw [frameOf_or_low _ hlow]
    decide
  generalize hslotEq : virtualAddr / 4194304 = slot at hslot habsent hlast
  have hrec' : Recursive (m.mem.set m.dir slot value) m.dir :=
    hrec.of_eq (m.mem.set_of_ne_word hlast ..)
  have hself : m.mem.set m.dir slot value m.dir slot = value := Mem.set_self ..
  have htable : tableOf (m.mem.set m.dir slot value) m.dir slot = 0 := by
    rw [tableOf, hself]
    exact hto.2
  have hset : Present (m.mem.set m.dir slot value m.dir slot) := by
    rw [hself]
    exact hto.1
  have hcleared := clearTable_eq hslot 1024 0 hrec' hset (htable.trans_ne hdir.symm)
  rw [htable] at hcleared
  obtain ⟨cleared, hclear, hkept⟩ : ∃ cleared,
      clearTable m.dir (recPageTable slot) 1024 0 (m.mem.set m.dir slot value) = some cleared ∧
        ∀ w, cleared m.dir w = m.mem.set m.dir slot value m.dir w :=
    ⟨_, hcleared, fun w => if_neg fun hall => hdir hall.1⟩
  have hensure : ensureTable m slot flags = some { m with mem := cleared } := by
    rw [ensureTable, hrec.load_pageDir, Option.bind_some, if_pos habsent, hnone, Option.bind_some]
    dsimp only
    rw [hvalue, hrec.store_pageDir, Option.bind_some, hclear, Option.map_some]
  have hpresent : Present (cleared m.dir slot) := by
    rw [hkept]
    exact hset
  have hzero : tableOf cleared m.dir slot = 0 := (congrArg frameOf (hkept slot)).trans htable
  have hrec'' : Recursive cleared m.dir := hrec'.of_eq (hkept 1023)
  rw [memMapPage, hslotEq, hensure, Option.bind_some]
  dsimp only
  rw [hrec''.load_pageTable hslot hpresent, Option.bind_some,
    hrec''.store_pageTable hslot hpresent, hzero]
  refine ⟨_, rfl, rfl, rfl, ?_, fun w hw => ?_⟩
  · dsimp only
    rw [cleared.set_of_ne_frame hdir, hkept, hself]
    exact hto
  · dsimp only
    rw [cleared.set_of_ne_frame hdir, hkept]
    exact m.mem.set_of_ne_word hw ..

/-! ## The loop while its pages have entries -/

theorem toFrame0_or {entry : ℕ} (h : frameOf entry = 0) : ToFrame0 (entry ||| 3) :=
  ⟨present_or (Or.inr (by decide)), (frameOf_or_low entry (by decide)).trans h⟩

theorem large_or_three {entry : ℕ} : Large (entry ||| 3) ↔ Large entry := by
  rw [large_or_iff]
  exact or_iff_left (by decide)

/-- The entry that mapping a page to the address 0 writes. -/
theorem entry_of_zero (old : ℕ) : 0 ||| pageFlagPres ||| old ||| pageFlagWrt = old ||| 3 := by
  rw [Nat.zero_or, Nat.or_comm pageFlagPres, Nat.or_assoc]
  rfl

/-- The directory points to itself as long as its last word gets only these bits. -/
theorem recursive_widened {mem mem' : Mem} {dir : ℕ} (h : Recursive mem dir)
    (hword : mem' dir 1023 = mem dir 1023 ∨ mem' dir 1023 = mem dir 1023 ||| 3) :
    Recursive mem' dir := by
  rcases hword with hsame | hmore
  · exact h.of_eq hsame
  · refine ⟨?_, ?_⟩
    · rw [HasTable, hmore, large_or_three]
      exact ⟨present_or (Or.inl h.table.1), h.table.2⟩
    · rw [tableOf, hmore, frameOf_or_low _ (by decide)]
      exact h.self

/-- A word is as it was, or it had an entry and got the bits of a mapping. -/
structure Widens (m s : Paging) : Prop where
  dir : s.dir = m.dir
  pmm : s.pmm = m.pmm
  word : ∀ f w, s.mem f w = m.mem f w ∨ s.mem f w = m.mem f w ||| 3 ∧ Named (m.mem f w)

section Widens

variable {m s : Paging}

theorem Widens.frame (h : Widens m s) (f w : ℕ) : frameOf (s.mem f w) = frameOf (m.mem f w) := by
  rcases h.word f w with hsame | ⟨hmore, -⟩
  · rw [hsame]
  · rw [hmore, frameOf_or_low _ (by decide)]

theorem Widens.present (h : Widens m s) {f w : ℕ} (hpresent : Present (m.mem f w)) :
    Present (s.mem f w) := by
  rcases h.word f w with hsame | ⟨hmore, -⟩
  · rw [hsame]
    exact hpresent
  · rw [hmore]
    exact present_or (Or.inl hpresent)

theorem Widens.large_iff (h : Widens m s) (f w : ℕ) :
    Large (s.mem f w) ↔ Large (m.mem f w) := by
  rcases h.word f w with hsame | ⟨hmore, -⟩
  · rw [hsame]
  · rw [hmore, large_or_three]

theorem Widens.toFrame0 (h : Widens m s) {f w : ℕ} (hto : ToFrame0 (s.mem f w)) :
    ToFrame0 (m.mem f w) := by
  rcases h.word f w with hsame | ⟨-, hnamed⟩
  · rw [← hsame]
    exact hto
  · have hzero : frameOf (m.mem f w) = 0 := (h.frame f w).symm.trans hto.2
    exact ⟨hnamed.resolve_right (not_not.mpr hzero), hzero⟩

theorem Widens.recursive (h : Widens m s) (hrec : Recursive m.mem m.dir) :
    Recursive s.mem m.dir :=
  recursive_widened hrec ((h.word m.dir 1023).imp_right And.left)

/-- The slots that are absent are absent still. -/
theorem Widens.present_iff (h : Widens m s) (hok : KernelTables m) {slot : ℕ}
    (hslot : slot < 1024) : Present (s.mem m.dir slot) ↔ Present (m.mem m.dir slot) := by
  refine ⟨fun hpresent => ?_, h.present⟩
  by_contra habsent
  rcases h.word m.dir slot with hsame | ⟨-, hnamed⟩
  · exact habsent (hsame ▸ hpresent)
  · rw [hok.zero slot hslot habsent] at hnamed
    exact hnamed.elim (by decide) (by decide)

/-- What was mapped before the loop is mapped there still. -/
theorem Widens.walk (h : Widens m s) {page frame : ℕ}
    (hwalk : Device.walk m.mem m.dir page = some frame) :
    Device.walk s.mem m.dir page = some frame := by
  have hbig (entry : ℕ) : entry / 4194304 = frameOf entry / 1024 :=
    (Nat.div_div_eq_div_mul entry 4096 1024).symm
  unfold Device.walk at hwalk ⊢
  dsimp only at hwalk ⊢
  by_cases hpresent : Present (m.mem m.dir (page / 1024))
  · rw [if_neg (not_not.mpr hpresent)] at hwalk
    rw [if_neg (not_not.mpr (h.present hpresent))]
    by_cases hlarge : Large (m.mem m.dir (page / 1024))
    · rw [if_pos hlarge, hbig] at hwalk
      rw [if_pos ((h.large_iff _ _).mpr hlarge), hbig, h.frame]
      exact hwalk
    · rw [if_neg hlarge] at hwalk
      rw [if_neg (mt (h.large_iff _ _).mp hlarge), h.frame, h.frame]
      split_ifs at hwalk with hentry
      rw [if_pos (h.present hentry)]
      exact hwalk
  · rw [if_pos hpresent] at hwalk
    cases hwalk

theorem Widens.unharmed (h : Widens m s) : Unharmed m s where
  directory _ _ := h.toFrame0
  tables _ _ _ _ _ := h.toFrame0
  mappings _ _ := h.walk

end Widens

/-- The loop without a frame maps its next page to the address 0. -/
theorem growHeap_of_noFrames {left i : ℕ} {s s' : Paging} (hnone : NoFrames s.pmm)
    (h : growHeap 0 (left + 1) i s = some s') :
    ∃ next, memMapPage s (heapAddr 0 i) 0 pageFlagWrt = some next ∧
      growHeap 0 left (i + 1) next = some s' := by
  rw [growHeap, hnone, Option.bind_some] at h
  exact Option.bind_eq_some_iff.mp h

/-- The slots of the heap wrap around the end of memory and never reach the kernel. -/
theorem heapSlot {i : ℕ} (hi : i < 0x80000) : heapAddr 0 i / 4194304 < 1024 ∧
    ¬ (768 ≤ heapAddr 0 i / 4194304 ∧ heapAddr 0 i / 4194304 < 772) := by
  unfold heapAddr kernelMalloc
  omega

theorem hasEntry_heapAddr (m : Paging) (i : ℕ) : HasEntry m (heapAddr 0 i / 4096) ↔
    Present (m.mem m.dir (heapAddr 0 i / 4194304)) ∧
      Named (m.mem (tableOf m.mem m.dir (heapAddr 0 i / 4194304))
        (heapAddr 0 i / 4096 % 1024)) := by
  rw [HasEntry, Nat.div_div_eq_div_mul]

/-- A page that has an entry gets the bits of a mapping there. -/
theorem Widens.map {m s next : Paging} (h : Widens m s) (hok : KernelTables m) {i : ℕ}
    (hi : i < 0x80000) (hentry : HasEntry m (heapAddr 0 i / 4096))
    (hmap : memMapPage s (heapAddr 0 i) 0 pageFlagWrt = some next) : Widens m next := by
  obtain ⟨hpresent, hnamed⟩ := (hasEntry_heapAddr m i).mp hentry
  have hrec : Recursive s.mem s.dir := h.dir ▸ h.recursive hok.recursive
  have hthere : Present (s.mem s.dir (heapAddr 0 i / 4194304)) := h.dir ▸ h.present hpresent
  rw [memMapPage_of_present hrec (heapSlot hi).1 hthere] at hmap
  obtain rfl := Option.some.inj hmap
  have htable : tableOf s.mem s.dir (heapAddr 0 i / 4194304) =
      tableOf m.mem m.dir (heapAddr 0 i / 4194304) := h.dir ▸ h.frame _ _
  refine ⟨h.dir, h.pmm, fun f w => ?_⟩
  dsimp only
  rw [entry_of_zero, htable]
  by_cases hsame : f = tableOf m.mem m.dir (heapAddr 0 i / 4194304) ∧ w = heapAddr 0 i / 4096 % 1024
  · obtain ⟨rfl, rfl⟩ := hsame
    rw [Mem.set_self]
    refine Or.inr ⟨?_, hnamed⟩
    rcases h.word (tableOf m.mem m.dir (heapAddr 0 i / 4194304)) (heapAddr 0 i / 4096 % 1024)
      with hsame | ⟨hmore, -⟩
    · rw [hsame]
    · rw [hmore, Nat.or_assoc, Nat.or_self]
  · rw [Mem.set, if_neg hsame]
    exact h.word f w

/-! ## The loop after a page without an entry -/

/-- What the rest of the loop does to the entries that refer to frame 0: those of the directory
stay, and those of a table may go only when an absent slot comes to refer to it. -/
structure Sinks (s s' : Paging) : Prop where
  dir : s'.dir = s.dir
  pmm : s'.pmm = s.pmm
  recursive : Recursive s'.mem s.dir
  present : ∀ slot, Present (s.mem s.dir slot) → Present (s'.mem s.dir slot)
  directory : ∀ slot, ToFrame0 (s.mem s.dir slot) → ToFrame0 (s'.mem s.dir slot)
  words : (∀ f w, ToFrame0 (s.mem f w) → ToFrame0 (s'.mem f w)) ∨
    ∃ slot < 1024, ¬ Present (s.mem s.dir slot) ∧ ToFrame0 (s'.mem s.dir slot)

/-- One page of the loop. -/
theorem sinks_map {s next : Paging} {virtualAddr : ℕ} (hrec : Recursive s.mem s.dir)
    (hnone : NoFrames s.pmm) (hdir : s.dir ≠ 0) (hslot : virtualAddr / 4194304 < 1024)
    (hmap : memMapPage s virtualAddr 0 pageFlagWrt = some next) : Sinks s next := by
  by_cases hpresent : Present (s.mem s.dir (virtualAddr / 4194304))
  · rw [memMapPage_of_present hrec hslot hpresent, entry_of_zero] at hmap
    obtain ⟨mem, hmem, hword⟩ : ∃ mem, s.mem.set (tableOf s.mem s.dir (virtualAddr / 4194304))
        (virtualAddr / 4096 % 1024) (s.mem (tableOf s.mem s.dir (virtualAddr / 4194304))
          (virtualAddr / 4096 % 1024) ||| 3) = mem ∧
        ∀ f w, mem f w = s.mem f w ∨ mem f w = s.mem f w ||| 3 := by
      refine ⟨_, rfl, fun f w => ?_⟩
      unfold Mem.set
      split_ifs with hsame
      · rw [hsame.1, hsame.2]
        exact Or.inr rfl
      · exact Or.inl rfl
    rw [hmem] at hmap
    obtain rfl := Option.some.inj hmap
    have hkept (f w : ℕ) (hto : ToFrame0 (s.mem f w)) : ToFrame0 (mem f w) := by
      rcases hword f w with hsame | hmore
      · rw [hsame]
        exact hto
      · rw [hmore]
        exact toFrame0_or hto.2
    refine ⟨rfl, rfl, recursive_widened hrec (hword s.dir 1023), fun slot hthere => ?_,
      hkept s.dir, Or.inl hkept⟩
    dsimp only
    rcases hword s.dir slot with hsame | hmore
    · rw [hsame]
      exact hthere
    · rw [hmore]
      exact present_or (Or.inl hthere)
  · obtain ⟨m', hmap', hsameDir, hpmm, hto, hother⟩ :=
      memMapPage_of_absent hrec hslot hpresent hnone hdir (show pageFlagWrt < 4096 by decide)
    obtain rfl := Option.some.inj (hmap'.symm.trans hmap)
    have hne {slot : ℕ} (hthere : Present (s.mem s.dir slot)) : slot ≠ virtualAddr / 4194304 :=
      fun heq => hpresent (heq ▸ hthere)
    refine ⟨hsameDir, hpmm, hrec.of_eq (hother 1023 (hne hrec.table.1)), fun slot hthere => ?_,
      fun slot hthere => ?_, Or.inr ⟨virtualAddr / 4194304, hslot, hpresent, hto⟩⟩
    · rw [hother slot (hne hthere)]
      exact hthere
    · rw [hother slot (hne hthere.1)]
      exact hthere

theorem Sinks.trans {s t u : Paging} (hst : Sinks s t) (htu : Sinks t u) : Sinks s u := by
  have hdir := hst.dir
  have hpresent := htu.present
  have hdirectory := htu.directory
  have hrec := htu.recursive
  have hwords := htu.words
  rw [hdir] at hpresent hdirectory hrec hwords
  refine ⟨htu.dir.trans hdir, htu.pmm.trans hst.pmm, hrec,
    fun slot h => hpresent slot (hst.present slot h),
    fun slot h => hdirectory slot (hst.directory slot h), ?_⟩
  rcases hst.words with hkept | ⟨slot, hslot, habsent, hto⟩
  · rcases hwords with hkept' | ⟨slot, hslot, habsent, hto⟩
    · exact Or.inl fun f w h => hkept' f w (hkept f w h)
    · exact Or.inr ⟨slot, hslot, mt (hst.present slot) habsent, hto⟩
  · exact Or.inr ⟨slot, hslot, habsent, hdirectory slot hto⟩

/-- The rest of the loop. -/
theorem sinks_growHeap {left i : ℕ} {s s' : Paging} (hrec : Recursive s.mem s.dir)
    (hnone : NoFrames s.pmm) (hdir : s.dir ≠ 0) (hroom : i + left ≤ 0x80000)
    (h : growHeap 0 left i s = some s') : Sinks s s' := by
  induction left generalizing i s with
  | zero =>
      obtain rfl := Option.some.inj h
      exact ⟨rfl, rfl, hrec, fun _ => id, fun _ => id, Or.inl fun _ _ => id⟩
  | succ left ih =>
      obtain ⟨next, hmap, h⟩ := growHeap_of_noFrames hnone h
      have hfirst := sinks_map hrec hnone hdir (heapSlot (by omega)).1 hmap
      have hrec' : Recursive next.mem next.dir := hfirst.dir.symm ▸ hfirst.recursive
      have hrest := ih hrec' (hfirst.pmm.symm ▸ hnone) (hfirst.dir.trans_ne hdir) (by omega) h
      exact hfirst.trans hrest

/-- A page without an entry harms: its table or its entry comes to refer to frame 0, or in
place of the entry a table that the rest of the loop makes. -/
theorem Widens.not_unharmed {m s s' : Paging} (h : Widens m s) (hok : KernelTables m)
    (hnone : NoFrames m.pmm) {left i : ℕ} (hroom : i + (left + 1) ≤ 0x80000)
    (hentry : ¬ HasEntry m (heapAddr 0 i / 4096)) (hgrow : growHeap 0 (left + 1) i s = some s') :
    ¬ Unharmed m s' := by
  intro hunharmed
  have hnone' : NoFrames s.pmm := h.pmm.symm ▸ hnone
  have hrec : Recursive s.mem s.dir := h.dir ▸ h.recursive hok.recursive
  have hdir : s.dir ≠ 0 := h.dir.trans_ne hok.dir
  obtain ⟨hslot, hkernel⟩ := heapSlot (i := i) (by omega)
  obtain ⟨next, hmap, hgrow⟩ := growHeap_of_noFrames hnone' hgrow
  have hfirst := sinks_map hrec hnone' hdir hslot hmap
  have hrest : Sinks next s' := sinks_growHeap (hfirst.dir.symm ▸ hfirst.recursive)
    (hfirst.pmm.symm ▸ hnone') (hfirst.dir.trans_ne hdir) (by omega) hgrow
  -- no absent slot of the directory may come to refer to frame 0
  have hslots (slot : ℕ) (hlt : slot < 1024) (habsent : ¬ Present (m.mem m.dir slot))
      (hto : ToFrame0 (s'.mem m.dir slot)) : False :=
    habsent (hunharmed.directory slot hlt hto).1
  have hback := hrest.directory
  have hwords := hrest.words
  rw [hfirst.dir, h.dir] at hback hwords
  by_cases hpresent : Present (m.mem m.dir (heapAddr 0 i / 4194304))
  · have hunnamed := fun hnamed => hentry ((hasEntry_heapAddr m i).mpr ⟨hpresent, hnamed⟩)
    have htable : tableOf s.mem s.dir (heapAddr 0 i / 4194304) =
        tableOf m.mem m.dir (heapAddr 0 i / 4194304) := h.dir ▸ h.frame _ _
    have hsame : s.mem (tableOf m.mem m.dir (heapAddr 0 i / 4194304)) (heapAddr 0 i / 4096 % 1024) =
        m.mem (tableOf m.mem m.dir (heapAddr 0 i / 4194304)) (heapAddr 0 i / 4096 % 1024) :=
      (h.word _ _).resolve_right fun hmore => hunnamed hmore.2
    have hzero := not_not.mp fun hne => hunnamed (Or.inr hne)
    rw [memMapPage_of_present hrec hslot (h.dir ▸ h.present hpresent), entry_of_zero, htable,
      hsame] at hmap
    obtain rfl := Option.some.inj hmap
    rcases hwords with hkept | ⟨slot, hlt, habsent, hto⟩
    · refine hunnamed (Or.inl (hunharmed.tables _ hslot ⟨hpresent, fun hlarge => ?_⟩ _
        (Nat.mod_lt _ (by decide)) (hkept _ _ ?_)).1)
      · exact hkernel (hok.large _ hslot hlarge)
      · dsimp only
        rw [Mem.set_self]
        exact toFrame0_or hzero
    · refine hslots slot hlt (fun hthere => habsent ?_) hto
      have := hfirst.present slot (h.dir ▸ h.present hthere)
      exact h.dir ▸ this
  · have habsent : ¬ Present (s.mem s.dir (heapAddr 0 i / 4194304)) :=
      h.dir ▸ mt (h.present_iff hok hslot).mp hpresent
    obtain ⟨m', hmap', -, -, hto, -⟩ :=
      memMapPage_of_absent hrec hslot habsent hnone' hdir (show pageFlagWrt < 4096 by decide)
    obtain rfl := Option.some.inj (hmap'.symm.trans hmap)
    exact hslots _ hslot hpresent (hback _ (h.dir ▸ hto))

/-- The loop without frames, from a page on. -/
theorem Widens.unharmed_iff {m s s' : Paging} (h : Widens m s) (hok : KernelTables m)
    (hnone : NoFrames m.pmm) {left i : ℕ} (hroom : i + left ≤ 0x80000)
    (hgrow : growHeap 0 left i s = some s') :
    Unharmed m s' ↔ ∀ j, i ≤ j → j < i + left → HasEntry m (heapAddr 0 j / 4096) := by
  induction left generalizing i s with
  | zero =>
      obtain rfl := Option.some.inj hgrow
      exact iff_of_true h.unharmed fun j hle hlt => by omega
  | succ left ih =>
      by_cases hentry : HasEntry m (heapAddr 0 i / 4096)
      · obtain ⟨next, hmap, hgrow⟩ := growHeap_of_noFrames (h.pmm.symm ▸ hnone) hgrow
        rw [ih (h.map hok (by omega) hentry hmap) (by omega) hgrow]
        constructor
        · intro hall j hle hlt
          rcases Nat.eq_or_lt_of_le hle with rfl | hlater
          · exact hentry
          · exact hall j hlater (by omega)
        · exact fun hall j hle hlt => hall j (by omega) (by omega)
      · refine iff_of_false (h.not_unharmed hok hnone hroom hentry hgrow) fun hall => ?_
        exact hentry (hall i (Nat.le_refl i) (by omega))

/-! ## Calls that find no frame -/

/-- A new table on frame 0 is harm. -/
theorem MapStarves.not_unharmed {m m' : Paging} {virtualAddr physicalAddr flags : ℕ}
    (hok : KernelTables m) (hslot : virtualAddr / 4194304 < 1024) (hlow : flags < 4096)
    (hstarves : MapStarves m virtualAddr)
    (h : memMapPage m virtualAddr physicalAddr flags = some m') : ¬ Unharmed m m' := by
  obtain ⟨habsent, hnone⟩ := hstarves
  obtain ⟨m'', hmap, -, -, hto, -⟩ :=
    @memMapPage_of_absent m _ physicalAddr _ hok.recursive hslot habsent hnone hok.dir hlow
  obtain rfl := Option.some.inj (hmap.symm.trans h)
  exact fun hunharmed => habsent (hunharmed.directory _ hslot hto).1

/-- The flags of a call lie below the address. -/
def Call.LowFlags : Call → Prop
  | .map _ _ flags => flags.toNat < 4096
  | .heap _ => True

/-- **Only entries that were there already take it.** A call that finds no frame leaves the
tables unharmed exactly when it can do without it. -/
theorem outOfFrames_iff {m m' : Paging} {call : Call} (hok : KernelTables m) (hlow : call.LowFlags)
    (hstarves : call.Starves m) (h : call.run m = some m') :
    Unharmed m m' ↔ call.CanDoWithout m := by
  cases call with
  | map virtualAddr physicalAddr flags =>
      have hslot : virtualAddr.toNat / 4194304 < 1024 := by
        have := virtualAddr.toNat_lt
        omega
      exact iff_of_false (hstarves.not_unharmed hok hslot hlow h) id
  | heap newSize =>
      obtain ⟨diff, hdiff, hgrow⟩ := Option.bind_eq_some_iff.mp h
      obtain ⟨diff', hdiff', hgrows⟩ := hstarves
      obtain rfl := Option.some.inj (hdiff'.symm.trans hdiff)
      have htop : ceilDiv m.heapSize 0x1000 = 0 := by
        rw [hok.heapSize]
        rfl
      have hroom : 0 + diff' ≤ 0x80000 := by
        unfold heapDiff at hdiff
        split_ifs at hdiff with hbound
        rw [← Option.some.inj hdiff, htop]
        have := Int.tdiv_le_tdiv (show (0 : ℤ) < 0x1000 by decide)
          (show newSize + 0x1000 - 1 ≤ 0x7FFFFFFF by omega)
        have htdiv : (0x7FFFFFFF : ℤ).tdiv 0x1000 = 0x7FFFF := by decide
        omega
      have hsame : Widens m m := ⟨rfl, rfl, fun _ _ => Or.inl rfl⟩
      rw [htop] at hgrow
      rw [hsame.unharmed_iff hok hgrows.noFrames hroom hgrow]
      constructor
      · intro hall diff' hdiff' i hi
        obtain rfl := Option.some.inj (hdiff'.symm.trans hdiff)
        exact hall i (Nat.zero_le i) (by omega)
      · exact fun hall j _ hlt => hall _ hdiff j (by omega)

/-- Two megabytes with the modules at their end: there is no byte of frames to manage. -/
def starved : Paging := initMemory (fun _ _ => 0) 0x110 0x200000 0x200000

theorem noFrames_starved : NoFrames starved.pmm := by
  have hstart : starved.pmm.start = 64 := by decide +kernel
  have hstop : starved.pmm.stop = 64 := by decide +kernel
  rw [NoFrames, pmmAllocPageFrame, hstart, hstop]
  rfl

/-- `kmain` maps the page of the screen. -/
theorem exists_map_starved : ¬ Present (starved.mem starved.dir 0) ∧
    ∃ m, memMapPage starved 0xB8000 0xB8000 3 = some m ∧ ToFrame0 (m.mem starved.dir 0) := by
  have habsent : ¬ Present (starved.mem starved.dir 0) := by decide
  obtain ⟨m, hmap, -, -, hto, -⟩ := memMapPage_of_absent (m := starved)
    (recursive_initMemory _ 0x110 _ _) (show 0xB8000 / 4194304 < 1024 by decide) habsent
    noFrames_starved (by decide) (show 3 < 4096 by decide)
  exact ⟨habsent, m, hmap, hto⟩

/-- The page of the screen cannot do without a table. -/
theorem outOfFrames_iff_starved : ∃ m, (Call.map 0xB8000 0xB8000 3).run starved = some m ∧
    (Unharmed starved m ↔ (Call.map 0xB8000 0xB8000 3).CanDoWithout starved) := by
  obtain ⟨habsent, m, hmap, -⟩ := exists_map_starved
  exact ⟨m, hmap, outOfFrames_iff (kernelTables_initMemory (by decide) _ _ _)
    (show (3 : UInt32).toNat < 4096 by decide) ⟨habsent, noFrames_starved⟩ hmap⟩

/-- Its new table lies on frame 0, and nothing says that there was no frame. -/
theorem table_on_frame0 : (Call.map 0xB8000 0xB8000 3).Starves starved ∧
    ∃ m, (Call.map 0xB8000 0xB8000 3).run starved = some m ∧
      ¬ ToFrame0 (starved.mem starved.dir 0) ∧ ToFrame0 (m.mem starved.dir 0) ∧
      ¬ Unharmed starved m := by
  obtain ⟨habsent, m, hmap, hto⟩ := exists_map_starved
  exact ⟨⟨habsent, noFrames_starved⟩, m, hmap, fun h => habsent h.1, hto,
    fun h => habsent (h.directory 0 (by decide) hto).1⟩

end MasterOS.Memory
