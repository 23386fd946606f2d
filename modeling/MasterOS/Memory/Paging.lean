/-
# Page tables

`memMapPage` and the heap's `changeHeapSize` over physical memory. There is one address
space: the directory is `initial_page_dir`, and both it and its tables are reached through
the recursive slot. A page fault, an access behind `PMB` and an overflow of a signed number
end a call without a state.
-/

import MasterOS.Device.Mmu
import MasterOS.Math.Machine
import MasterOS.Memory.Pmm

namespace MasterOS.Memory

open MasterOS.Device MasterOS.Math

/-! ## The code -/

/-- `PAGE_FLAG_PRES`. -/
def pageFlagPres : ℕ := 0x1

/-- `PAGE_FLAG_WRT`. -/
def pageFlagWrt : ℕ := 0x2

/-- `PAGE_FLAG_USER`. -/
def pageFlagUser : ℕ := 0x4

/-- `PAGE_FLAG_OWNER`. -/
def pageFlagOwner : ℕ := 0x200

/-- `KERNEL_MALLOC`. -/
def kernelMalloc : ℕ := 0xD0000000

/-- Physical memory with the frame of the directory, and the statics of both files. -/
structure Paging where
  mem : Mem
  dir : ℕ
  pmm : Pmm
  memNumVpages : ℕ
  heapSize : ℕ

/-- The directory of `boot.s`: large pages at the start and from `KERNEL_START` on. -/
def bootPageDir (slot : ℕ) : ℕ :=
  if slot = 0 then 0x83
  else if 768 ≤ slot ∧ slot < 772 then (slot - 768) * 0x400000 + 0x83
  else 0

/-- `initMemory`, on any memory whose frame `dir` holds the directory of `boot.s`. -/
def initMemory (mem : Mem) (dir : ℕ) (memHigh physicalAllocStart : UInt32) : Paging where
  mem f w :=
    if f = dir ∧ w < 1024 then
      if w = 0 then 0
      else if w = 1023 then dir * 4096 ||| pageFlagPres ||| pageFlagWrt
      else bootPageDir w
    else mem f w
  dir := dir
  pmm := pmmInit physicalAllocStart memHigh
  memNumVpages := 0
  heapSize := 0

/-- The loop that clears a new table, with `left` words still to clear. -/
def clearTable (dir page : ℕ) : (left i : ℕ) → Mem → Option Mem
  | 0, _, mem => some mem
  | left + 1, i, mem => (store mem dir page i 0).bind (clearTable dir page left (i + 1))

/-- The part of `memMapPage` that makes sure the slot has a table. -/
def ensureTable (m : Paging) (pdIndex flags : ℕ) : Option Paging :=
  (load m.mem m.dir recPageDir pdIndex).bind fun entry =>
    if ¬ Present entry then
      (pmmAllocPageFrame m.pmm).bind fun frame =>
        let value := frame.1 ||| pageFlagPres ||| pageFlagWrt ||| pageFlagOwner ||| flags
        (store m.mem m.dir recPageDir pdIndex value).bind fun mem =>
          (clearTable m.dir (recPageTable pdIndex) 1024 0 mem).map fun mem =>
            { m with mem := mem, pmm := frame.2 }
    else if flags &&& pageFlagUser ≠ 0 then
      (store m.mem m.dir recPageDir pdIndex (entry ||| pageFlagUser)).map fun mem =>
        { m with mem := mem }
    else some m

/-- `memMapPage`. With one address space `cr3` already holds the directory, and no other
directory is in use that would have to be synchronised. -/
def memMapPage (m : Paging) (virtualAddr physicalAddr flags : ℕ) : Option Paging :=
  let pdIndex := virtualAddr / 4194304
  let ptIndex := virtualAddr / 4096 % 1024
  (ensureTable m pdIndex flags).bind fun m =>
    (load m.mem m.dir (recPageTable pdIndex) ptIndex).bind fun old =>
      (store m.mem m.dir (recPageTable pdIndex) ptIndex
          (physicalAddr ||| pageFlagPres ||| old ||| flags)).map fun mem =>
        { m with mem := mem, memNumVpages := m.memNumVpages + 1 }

/-- The address of page `i` of the heap, on `uint32_t`. -/
def heapAddr (oldPageTop : ℕ) (i : ℕ) : ℕ :=
  (kernelMalloc + oldPageTop * 0x1000 + i * 0x1000) % 4294967296

/-- The loop of `changeHeapSize`, with `left` pages still to map. -/
def growHeap (oldPageTop : ℕ) : (left i : ℕ) → Paging → Option Paging
  | 0, _, m => some m
  | left + 1, i, m =>
      (pmmAllocPageFrame m.pmm).bind fun phys =>
        (memMapPage { m with pmm := phys.2 } (heapAddr oldPageTop i) phys.1 pageFlagWrt).bind
          (growHeap oldPageTop left (i + 1))

/-- The number of pages `changeHeapSize` maps; none when the sum overflows an `int`.
`heapSize` keeps the value `kmallocInit` gives it. -/
def heapDiff (m : Paging) (newSize : ℤ) : Option ℕ :=
  if newSize + 0x1000 < 2147483648 then
    some (((newSize + 0x1000 - 1).tdiv 0x1000 - ceilDiv m.heapSize 0x1000).toNat)
  else none

/-- `changeHeapSize`. -/
def changeHeapSize (m : Paging) (newSize : ℤ) : Option Paging :=
  (heapDiff m newSize).bind fun diff => growHeap (ceilDiv m.heapSize 0x1000) diff 0 m

/-! ## The bits of an entry -/

theorem frameOf_or (a b : ℕ) : frameOf (a ||| b) = frameOf a ||| frameOf b :=
  Nat.or_div_two_pow (n := 12)

theorem frameOf_or_low (a : ℕ) {b : ℕ} (hb : b < 4096) : frameOf (a ||| b) = frameOf a := by
  rw [frameOf_or, show frameOf b = 0 from Nat.div_eq_of_lt hb, Nat.or_zero]

theorem present_or {a b : ℕ} (h : Present a ∨ Present b) : Present (a ||| b) := by
  unfold Present
  rw [Nat.testBit_or, Bool.or_eq_true]
  exact h

theorem large_or_iff {a b : ℕ} : Large (a ||| b) ↔ Large a ∨ Large b := by
  unfold Large
  rw [Nat.testBit_or, Bool.or_eq_true]

theorem not_large_of_aligned {a : ℕ} (h : a % 4096 = 0) : ¬ Large a := by
  unfold Large
  rw [Nat.testBit_eq_decide_div_mod_eq, show a / 2 ^ 7 % 2 = 0 by omega]
  decide

/-- What `pmmAllocPageFrame` returns is the address of a frame. -/
theorem pmmAllocPageFrame_aligned {m m' : Pmm} {addr : ℕ}
    (h : pmmAllocPageFrame m = some (addr, m')) : addr % 4096 = 0 := by
  have hfrom (left b : ℕ) (h : allocFrom m left b = some (addr, m')) : addr % 4096 = 0 := by
    induction left generalizing b with
    | zero =>
        injection h with h
        injection h with haddr
        rw [← haddr]
    | succ left ih =>
        unfold allocFrom at h
        split_ifs at h with hb hfull
        · exact ih _ h
        · cases hclear : clearBit (m.pmb b) with
          | none =>
              rw [hclear] at h
              exact ih _ h
          | some i =>
              rw [hclear] at h
              injection h with h
              injection h with haddr
              rw [← haddr]
              omega
  exact hfrom _ _ h

/-! ## What a call does to memory -/

/-- Clearing a table that is not the directory. -/
theorem clearTable_eq {dir slot : ℕ} (hslot : slot < 1024) (left i : ℕ) {mem : Mem}
    (hrec : Recursive mem dir) (hpresent : Present (mem dir slot))
    (hne : tableOf mem dir slot ≠ dir) :
    clearTable dir (recPageTable slot) left i mem = some fun f w =>
      if f = tableOf mem dir slot ∧ i ≤ w ∧ w < i + left then 0 else mem f w := by
  induction left generalizing i mem with
  | zero =>
      rw [clearTable]
      congr 1
      funext f w
      rw [if_neg (by omega)]
  | succ left ih =>
      have hdir (w : ℕ) : mem.set (tableOf mem dir slot) i 0 dir w = mem dir w :=
        mem.set_of_ne_frame (Ne.symm hne) i 0 w
      have hentry : tableOf (mem.set (tableOf mem dir slot) i 0) dir slot = tableOf mem dir slot :=
        congrArg frameOf (hdir slot)
      have hpresent' : Present (mem.set (tableOf mem dir slot) i 0 dir slot) := by
        rw [hdir]
        exact hpresent
      rw [clearTable, hrec.store_pageTable hslot hpresent, Option.bind_some,
        ih (i + 1) (hrec.of_eq (hdir 1023)) hpresent' (hentry.trans_ne hne), hentry]
      congr 1
      funext f w
      unfold Mem.set
      split_ifs <;> first | rfl | omega

/-- What `memMapPage` does before it writes the entry: the slot has a table afterwards, the
one it had or a new one on the frame that was handed out. -/
structure Ensured (m m' : Paging) (slot : ℕ) : Prop where
  dir : m'.dir = m.dir
  heapSize : m'.heapSize = m.heapSize
  other : ∀ w, w ≠ slot → m'.mem m.dir w = m.mem m.dir w
  hasTable : HasTable m'.mem m.dir slot
  frames : (HasTable m.mem m.dir slot ∧ m'.pmm = m.pmm ∧
      tableOf m'.mem m.dir slot = tableOf m.mem m.dir slot ∧
      ∀ f w, f ≠ m.dir → m'.mem f w = m.mem f w) ∨
    (¬ Present (m.mem m.dir slot) ∧ ∃ addr, pmmAllocPageFrame m.pmm = some (addr, m'.pmm) ∧
      tableOf m'.mem m.dir slot = frameOf addr ∧
      (∀ w, w < 1024 → m'.mem (frameOf addr) w = 0) ∧
      ∀ f w, f ≠ m.dir → f ≠ frameOf addr → m'.mem f w = m.mem f w)

/-- The slot is one that a table can be put in: it is not a large page, its table is not the
directory, and a new table gets neither the directory's frame nor the flag of a large page. -/
structure SlotOk (m : Paging) (slot flags : ℕ) : Prop where
  notLarge : ¬ (Present (m.mem m.dir slot) ∧ Large (m.mem m.dir slot))
  low : flags < 4096
  oldTable : HasTable m.mem m.dir slot → tableOf m.mem m.dir slot ≠ m.dir
  newTable : ¬ Present (m.mem m.dir slot) → ¬ Large flags ∧
    ∀ addr pmm, pmmAllocPageFrame m.pmm = some (addr, pmm) → frameOf addr ≠ m.dir

/-- The directory entry of a new table. -/
theorem SlotOk.newTable_spec {m : Paging} {slot flags addr : ℕ} {pmm : Pmm}
    (hok : SlotOk m slot flags) (hpresent : ¬ Present (m.mem m.dir slot))
    (halloc : pmmAllocPageFrame m.pmm = some (addr, pmm)) :
    tableOf (m.mem.set m.dir slot
        (addr ||| pageFlagPres ||| pageFlagWrt ||| pageFlagOwner ||| flags)) m.dir slot =
      frameOf addr ∧
    HasTable (m.mem.set m.dir slot
        (addr ||| pageFlagPres ||| pageFlagWrt ||| pageFlagOwner ||| flags)) m.dir slot := by
  rw [tableOf, HasTable, Mem.set_self]
  refine ⟨?_, ?_, ?_⟩
  · rw [frameOf_or_low _ hok.low, frameOf_or_low _ (by decide), frameOf_or_low _ (by decide),
      frameOf_or_low _ (by decide)]
  · exact present_or (Or.inl (present_or (Or.inl (present_or (Or.inl (present_or
      (Or.inr (by decide))))))))
  · simp only [large_or_iff, not_or]
    exact ⟨⟨⟨⟨not_large_of_aligned (pmmAllocPageFrame_aligned halloc), by decide⟩, by decide⟩,
      by decide⟩, (hok.newTable hpresent).1⟩

theorem ensureTable_ensured {m m' : Paging} {slot flags : ℕ} (hslot : slot < 1023)
    (hrec : Recursive m.mem m.dir) (hok : SlotOk m slot flags)
    (h : ensureTable m slot flags = some m') : Ensured m m' slot := by
  rw [ensureTable, hrec.load_pageDir, Option.bind_some] at h
  by_cases hpresent : Present (m.mem m.dir slot)
  · have htable : HasTable m.mem m.dir slot := ⟨hpresent, fun hlarge => hok.notLarge ⟨hpresent, hlarge⟩⟩
    rw [if_neg (not_not.mpr hpresent)] at h
    by_cases huser : flags &&& pageFlagUser ≠ 0
    · rw [if_pos huser, hrec.store_pageDir, Option.map_some] at h
      obtain rfl := Option.some.inj h
      refine ⟨rfl, rfl, fun w hw => m.mem.set_of_ne_word hw .., ?_, Or.inl ⟨htable, rfl, ?_,
        fun f w hf => m.mem.set_of_ne_frame hf ..⟩⟩
      · dsimp only
        rw [HasTable, Mem.set_self, large_or_iff]
        exact ⟨present_or (Or.inl hpresent), fun hlarge => hlarge.elim htable.2 (by decide)⟩
      · dsimp only
        rw [tableOf, Mem.set_self, frameOf_or_low _ (by decide)]
        rfl
    · rw [if_neg huser] at h
      obtain rfl := Option.some.inj h
      exact ⟨rfl, rfl, fun _ _ => rfl, htable, Or.inl ⟨htable, rfl, rfl, fun _ _ _ => rfl⟩⟩
  · rw [if_pos hpresent] at h
    obtain ⟨⟨addr, pmm⟩, halloc, h⟩ := Option.bind_eq_some_iff.mp h
    have hne : frameOf addr ≠ m.dir := (hok.newTable hpresent).2 addr pmm halloc
    obtain ⟨hnew, htable⟩ := hok.newTable_spec hpresent halloc
    dsimp only at h
    rw [hrec.store_pageDir, Option.bind_some] at h
    generalize addr ||| pageFlagPres ||| pageFlagWrt ||| pageFlagOwner ||| flags = value
      at h hnew htable
    have hword (w : ℕ) (hw : w ≠ slot) : m.mem.set m.dir slot value m.dir w = m.mem m.dir w :=
      m.mem.set_of_ne_word hw ..
    have hrec' : Recursive (m.mem.set m.dir slot value) m.dir :=
      hrec.of_eq (hword 1023 (by omega))
    rw [clearTable_eq (by omega) 1024 0 hrec' htable.1 (hnew.trans_ne hne), Option.map_some,
      hnew] at h
    obtain rfl := Option.some.inj h
    have hdir (w : ℕ) : (if m.dir = frameOf addr ∧ 0 ≤ w ∧ w < 0 + 1024 then 0
        else m.mem.set m.dir slot value m.dir w) = m.mem.set m.dir slot value m.dir w :=
      if_neg fun hall => hne hall.1.symm
    refine ⟨rfl, rfl, fun w hw => (hdir w).trans (hword w hw), ?_,
      Or.inr ⟨hpresent, addr, halloc, ?_, fun w hw => ?_, fun f w hf hf' => ?_⟩⟩
    · dsimp only [HasTable]
      rw [hdir]
      exact htable
    · exact (congrArg frameOf (hdir slot)).trans hnew
    · exact if_pos ⟨rfl, Nat.zero_le w, by omega⟩
    · exact (if_neg fun hall => hf' hall.1).trans (m.mem.set_of_ne_frame hf ..)

/-- The entry of a page before it is mapped. -/
def Paging.oldEntry (m : Paging) (page : ℕ) : ℕ :=
  if Present (m.mem m.dir (page / 1024)) then
    m.mem (tableOf m.mem m.dir (page / 1024)) (page % 1024)
  else 0

/-- `memMapPage` is its search for a table and one write to it. -/
theorem memMapPage_spec {m m' : Paging} {virtualAddr physicalAddr flags : ℕ}
    (hslot : virtualAddr / 4194304 < 1023) (hrec : Recursive m.mem m.dir)
    (hok : SlotOk m (virtualAddr / 4194304) flags)
    (h : memMapPage m virtualAddr physicalAddr flags = some m') :
    ∃ ensured, Ensured m ensured (virtualAddr / 4194304) ∧ m'.dir = m.dir ∧
      m'.heapSize = m.heapSize ∧ m'.pmm = ensured.pmm ∧
      m'.mem = ensured.mem.set (tableOf ensured.mem m.dir (virtualAddr / 4194304))
        (virtualAddr / 4096 % 1024)
        (physicalAddr ||| pageFlagPres ||| m.oldEntry (virtualAddr / 4096) ||| flags) := by
  obtain ⟨ensured, hensure, h⟩ := Option.bind_eq_some_iff.mp h
  have hensured := ensureTable_ensured hslot hrec hok hensure
  have hrec' : Recursive ensured.mem m.dir := hrec.of_eq (hensured.other 1023 (by omega))
  have hpage : virtualAddr / 4096 / 1024 = virtualAddr / 4194304 := by omega
  have hold : ensured.mem (tableOf ensured.mem m.dir (virtualAddr / 4194304))
      (virtualAddr / 4096 % 1024) = m.oldEntry (virtualAddr / 4096) := by
    unfold Paging.oldEntry
    rw [hpage]
    rcases hensured.frames with ⟨htable, -, hsame, hframes⟩ | ⟨hnone, addr, -, hnew, hzero, -⟩
    · rw [if_pos htable.1, hsame]
      exact hframes _ _ (hok.oldTable htable)
    · rw [if_neg hnone, hnew]
      exact hzero _ (Nat.mod_lt _ (by decide))
  rw [hensured.dir, hrec'.load_pageTable (by omega) hensured.hasTable.1, Option.bind_some,
    hrec'.store_pageTable (by omega) hensured.hasTable.1, Option.map_some, hold] at h
  obtain rfl := Option.some.inj h
  exact ⟨ensured, hensured, rfl, hensured.heapSize, rfl, rfl⟩

/-- With a frame to hand out, or a table that is there, the call returns. -/
theorem exists_memMapPage {m : Paging} {virtualAddr physicalAddr flags : ℕ}
    (hslot : virtualAddr / 4194304 < 1023) (hrec : Recursive m.mem m.dir)
    (hok : SlotOk m (virtualAddr / 4194304) flags)
    (halloc : ∃ call, pmmAllocPageFrame m.pmm = some call) :
    ∃ m', memMapPage m virtualAddr physicalAddr flags = some m' := by
  obtain ⟨⟨addr, pmm⟩, halloc⟩ := halloc
  have hensure : ∃ ensured, ensureTable m (virtualAddr / 4194304) flags = some ensured := by
    rw [ensureTable, hrec.load_pageDir, Option.bind_some]
    by_cases hpresent : Present (m.mem m.dir (virtualAddr / 4194304))
    · rw [if_neg (not_not.mpr hpresent)]
      by_cases huser : flags &&& pageFlagUser ≠ 0
      · rw [if_pos huser, hrec.store_pageDir]
        exact ⟨_, rfl⟩
      · rw [if_neg huser]
        exact ⟨_, rfl⟩
    · obtain ⟨hnew, hset⟩ := hok.newTable_spec hpresent halloc
      rw [if_pos hpresent, halloc, Option.bind_some]
      dsimp only
      rw [hrec.store_pageDir, Option.bind_some,
        clearTable_eq (by omega) 1024 0 (hrec.of_eq (m.mem.set_of_ne_word (by omega) ..)) hset.1
          (hnew.trans_ne ((hok.newTable hpresent).2 addr pmm halloc))]
      exact ⟨_, rfl⟩
  obtain ⟨ensured, hensure⟩ := hensure
  have hensured := ensureTable_ensured hslot hrec hok hensure
  have hrec' : Recursive ensured.mem m.dir := hrec.of_eq (hensured.other 1023 (by omega))
  rw [memMapPage, hensure, Option.bind_some, hensured.dir,
    hrec'.load_pageTable (by omega) hensured.hasTable.1, Option.bind_some,
    hrec'.store_pageTable (by omega) hensured.hasTable.1]
  exact ⟨_, rfl⟩

/-- With a table in the slot, and for the kernel alone, only the entry is written. -/
theorem memMapPage_of_table {m : Paging} {virtualAddr physicalAddr flags : ℕ}
    (hrec : Recursive m.mem m.dir) (hslot : virtualAddr / 4194304 < 1024)
    (hpresent : Present (m.mem m.dir (virtualAddr / 4194304)))
    (hkernel : flags &&& pageFlagUser = 0) :
    memMapPage m virtualAddr physicalAddr flags = some { m with
      mem := m.mem.set (tableOf m.mem m.dir (virtualAddr / 4194304)) (virtualAddr / 4096 % 1024)
        (physicalAddr ||| pageFlagPres ||| m.mem (tableOf m.mem m.dir (virtualAddr / 4194304))
          (virtualAddr / 4096 % 1024) ||| flags)
      memNumVpages := m.memNumVpages + 1 } := by
  have hensure : ensureTable m (virtualAddr / 4194304) flags = some m := by
    rw [ensureTable, hrec.load_pageDir, Option.bind_some, if_neg (not_not.mpr hpresent),
      if_neg (not_not.mpr hkernel)]
  rw [memMapPage, hensure, Option.bind_some, hrec.load_pageTable hslot hpresent, Option.bind_some,
    hrec.store_pageTable hslot hpresent, Option.map_some]

end MasterOS.Memory
