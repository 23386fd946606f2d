/-
# The heap does not know its size

`changeHeapSize` compares the size it is asked for with `heapSize`, which `kmallocInit` sets
to zero and nothing sets again. So every call takes the heap for empty: it asks for a frame
for each page from `KERNEL_MALLOC` on, the pages of the calls before included.
-/

import Mathlib.Data.List.Nodup
import MasterOS.Memory.Translation

namespace MasterOS.Memory

open MasterOS.Device MasterOS.Math

/-! ## The code -/

/-- `kmallocInit`. Its size becomes an `int`. -/
def kmallocInit (m : Paging) (initialHeapSize : UInt32) : Option Paging :=
  changeHeapSize { m with heapSize := 0 } ((initialHeapSize.toNat : ℤ).bmod 4294967296)

/-- `kmallocInit`, noted. -/
def Noted.kmallocInit (s : Noted) (initialHeapSize : UInt32) : Option Noted :=
  { s with paging := { s.paging with heapSize := 0 } }.step
    (.heap ((initialHeapSize.toNat : ℤ).bmod 4294967296))

/-- The history only watches. -/
theorem Noted.kmallocInit_paging (s : Noted) (initialHeapSize : UInt32) :
    (s.kmallocInit initialHeapSize).map Noted.paging =
      Memory.kmallocInit s.paging initialHeapSize := by
  rw [Noted.kmallocInit, Noted.step_paging]
  rfl

/-- Calls of `changeHeapSize` one after the other, noted. -/
def Noted.changeHeapSizes : List ℤ → Noted → Option Noted
  | [], s => some s
  | newSize :: rest, s => (s.step (.heap newSize)).bind (Noted.changeHeapSizes rest)

/-! ## What the heap is for -/

/-- The pages that `changeHeapSize` mapped, the latest first. -/
def heapPages (history : List Mapping) : List ℕ :=
  (history.filter Mapping.heap).map Mapping.page

/-- The pages of a heap of some size. -/
def pagesOf (size : ℤ) : ℕ := ((size + 0xFFF) / 0x1000).toNat

/-- What a call that asks for a size leaves: `heapSize` is that size, the pages up to it are
mapped, each was mapped once, and those of the calls before keep their frames. -/
structure HeapGrown (before after : Noted) (size : ℤ) : Prop where
  heapSize : (after.paging.heapSize : ℤ) = size
  pages : ∀ page, page ∈ heapPages after.history ↔
    kernelMalloc / 0x1000 ≤ page ∧ page < kernelMalloc / 0x1000 + pagesOf size
  once : (heapPages after.history).Nodup
  kept : ∀ page ∈ heapPages before.history,
    walk after.paging.mem after.paging.dir page = walk before.paging.mem before.paging.dir page

/-- Every call of `changeHeapSize` returns and leaves what it promises. -/
def Noted.GrowsBy : List ℤ → Noted → Prop
  | [], _ => True
  | size :: rest, s =>
      ∃ next, s.step (.heap size) = some next ∧ HeapGrown s next size ∧ next.GrowsBy rest

/-- `kmallocInit` and every call of `changeHeapSize` after it return and leave what they
promise. -/
def GrowsByPage (m : Paging) (initialHeapSize : UInt32) (sizes : List ℤ) : Prop :=
  ∃ s, Noted.kmallocInit ⟨m, []⟩ initialHeapSize = some s ∧
    HeapGrown ⟨m, []⟩ s initialHeapSize.toNat ∧ s.GrowsBy sizes

/-! ## `heapSize` is never written -/

theorem ensureTable_heapSize {m m' : Paging} {pdIndex flags : ℕ}
    (h : ensureTable m pdIndex flags = some m') : m'.heapSize = m.heapSize := by
  obtain ⟨entry, -, h⟩ := Option.bind_eq_some_iff.mp h
  split_ifs at h with hpresent huser
  · obtain ⟨mem, -, rfl⟩ := Option.map_eq_some_iff.mp h
    rfl
  · rw [← Option.some.inj h]
  · obtain ⟨frame, -, h⟩ := Option.bind_eq_some_iff.mp h
    obtain ⟨mem, -, h⟩ := Option.bind_eq_some_iff.mp h
    obtain ⟨mem', -, rfl⟩ := Option.map_eq_some_iff.mp h
    rfl

theorem memMapPage_heapSize {m m' : Paging} {virtualAddr physicalAddr flags : ℕ}
    (h : memMapPage m virtualAddr physicalAddr flags = some m') : m'.heapSize = m.heapSize := by
  obtain ⟨ensured, hensure, h⟩ := Option.bind_eq_some_iff.mp h
  obtain ⟨old, -, h⟩ := Option.bind_eq_some_iff.mp h
  obtain ⟨mem, -, rfl⟩ := Option.map_eq_some_iff.mp h
  have hsame := ensureTable_heapSize hensure
  exact hsame

theorem growHeap_heapSize {oldPageTop left i : ℕ} {m m' : Paging}
    (h : growHeap oldPageTop left i m = some m') : m'.heapSize = m.heapSize := by
  induction left generalizing i m with
  | zero => rw [← Option.some.inj h]
  | succ left ih =>
      obtain ⟨phys, -, h⟩ := Option.bind_eq_some_iff.mp h
      obtain ⟨next, hnext, h⟩ := Option.bind_eq_some_iff.mp h
      have hsame : next.heapSize = m.heapSize := (memMapPage_heapSize hnext :)
      exact (ih h).trans hsame

/-- The loop maps its pages in turn and leaves `heapSize` alone. -/
theorem Noted.grow_spec {left i : ℕ} {s s' : Noted} (hroom : i + left ≤ 0x10000)
    (h : s.grow 0 left i = some s') :
    s'.paging.heapSize = s.paging.heapSize ∧
      heapPages s'.history =
        ((List.range' i left).map (kernelMalloc / 0x1000 + ·)).reverse ++ heapPages s.history := by
  induction left generalizing i s with
  | zero =>
      obtain rfl := Option.some.inj h
      exact ⟨rfl, rfl⟩
  | succ left ih =>
      obtain ⟨phys, -, h⟩ := Option.bind_eq_some_iff.mp h
      obtain ⟨next, hnext, h⟩ := Option.bind_eq_some_iff.mp h
      obtain ⟨m, hmap, rfl⟩ := Option.map_eq_some_iff.mp hnext
      have haddr : heapAddr 0 i / 4096 = kernelMalloc / 0x1000 + i := by
        unfold heapAddr kernelMalloc
        omega
      have hsame : m.heapSize = s.paging.heapSize := (memMapPage_heapSize hmap :)
      obtain ⟨hsize, hpages⟩ := ih (by omega) h
      refine ⟨hsize.trans hsame, ?_⟩
      have hpage : heapPages (⟨heapAddr 0 i / 4096, phys.1, pageFlagWrt, true⟩ :: s.history) =
          heapAddr 0 i / 4096 :: heapPages s.history := rfl
      rw [hpages]
      dsimp only [Noted.withPmm]
      rw [hpage, haddr, List.range'_succ, List.map_cons, List.reverse_cons, List.append_assoc,
        List.singleton_append]

/-- The pages of a heap of some size, the last first. -/
def allPages (size : ℤ) : List ℕ :=
  ((List.range' 0 (pagesOf size)).map (kernelMalloc / 0x1000 + ·)).reverse

/-- **A call maps the whole heap again.** -/
theorem Noted.step_heap {size : ℤ} {s s' : Noted} (hzero : s.paging.heapSize = 0)
    (hpos : 0 < size) (hlt : size < 0x10000000) (h : s.step (.heap size) = some s') :
    s'.paging.heapSize = 0 ∧ heapPages s'.history = allPages size ++ heapPages s.history := by
  obtain ⟨diff, hdiff, h⟩ := Option.bind_eq_some_iff.mp h
  have htop : ceilDiv s.paging.heapSize 0x1000 = 0 := by rw [hzero]; rfl
  rw [heapDiff, if_pos (by omega), htop] at hdiff
  have hpages : diff = pagesOf size := by
    rw [← Option.some.inj hdiff, pagesOf, Int.tdiv_eq_ediv_of_nonneg (by omega)]
    congr 1
    omega
  have hroom : 0 + pagesOf size ≤ 0x10000 := by
    unfold pagesOf
    omega
  rw [htop, hpages] at h
  obtain ⟨hsize, hall⟩ := Noted.grow_spec hroom h
  exact ⟨hsize.trans hzero, hall⟩

/-- What the calls map instead: each one the whole heap. -/
theorem Noted.changeHeapSizes_spec {sizes : List ℤ} {s s' : Noted}
    (hzero : s.paging.heapSize = 0) (hsizes : ∀ size ∈ sizes, 0 < size ∧ size < 0x10000000)
    (h : s.changeHeapSizes sizes = some s') :
    s'.paging.heapSize = 0 ∧
      heapPages s'.history = (sizes.reverse.map allPages).flatten ++ heapPages s.history := by
  induction sizes generalizing s with
  | nil =>
      obtain rfl := Option.some.inj h
      exact ⟨hzero, rfl⟩
  | cons size rest ih =>
      obtain ⟨hfirst, hrest⟩ := List.forall_mem_cons.mp hsizes
      obtain ⟨next, hnext, h⟩ := Option.bind_eq_some_iff.mp h
      obtain ⟨hnextSize, hnextPages⟩ := Noted.step_heap hzero hfirst.1 hfirst.2 hnext
      obtain ⟨hsize, hpages⟩ := ih hnextSize hrest h
      refine ⟨hsize, ?_⟩
      rw [hpages, hnextPages, List.reverse_cons, List.map_append, List.flatten_append,
        List.append_assoc, List.map_singleton, List.flatten_singleton]

theorem mem_allPages {size : ℤ} {page : ℕ} : page ∈ allPages size ↔
    kernelMalloc / 0x1000 ≤ page ∧ page < kernelMalloc / 0x1000 + pagesOf size := by
  rw [allPages, List.mem_reverse, List.mem_map]
  constructor
  · rintro ⟨i, hi, rfl⟩
    rw [List.mem_range'_1] at hi
    omega
  · rintro ⟨hle, hlt⟩
    refine ⟨page - kernelMalloc / 0x1000, List.mem_range'_1.mpr (by omega), by omega⟩

/-- The pages are mapped once each exactly when there was only one call. -/
theorem nodup_heapPages_iff {size : ℤ} {sizes : List ℤ} {s s' : Noted}
    (hzero : s.paging.heapSize = 0) (hnone : s.history = [])
    (hsizes : ∀ n ∈ size :: sizes, 0 < n ∧ n < 0x10000000)
    (h : s.changeHeapSizes (size :: sizes) = some s') :
    (heapPages s'.history).Nodup ↔ sizes = [] := by
  obtain ⟨hfirst, hrest⟩ := List.forall_mem_cons.mp hsizes
  have hpage (n : ℤ) (hpos : 0 < n) : kernelMalloc / 0x1000 ∈ allPages n := by
    rw [mem_allPages]
    unfold pagesOf
    omega
  rw [(Noted.changeHeapSizes_spec hzero hsizes h).2, hnone, List.reverse_cons, List.map_append,
    List.flatten_append, List.map_singleton, List.flatten_singleton]
  constructor
  · intro hnodup
    by_contra hne
    obtain ⟨last, hlast⟩ := List.exists_mem_of_ne_nil _ hne
    have hdisjoint := List.disjoint_of_nodup_append (List.Nodup.of_append_left hnodup)
    refine hdisjoint (List.mem_flatten.mpr ⟨allPages last, ?_, hpage last (hrest last hlast).1⟩)
      (hpage size hfirst.1)
    exact List.mem_map_of_mem (List.mem_reverse.mpr hlast)
  · rintro rfl
    rw [List.reverse_nil, List.map_nil, List.flatten_nil, List.nil_append,
      show heapPages [] = [] from rfl, List.append_nil, allPages, List.nodup_reverse]
    exact List.Nodup.map (fun a b hab => Nat.add_left_cancel hab) List.nodup_range'

/-- **The heap never knows its size.** Whatever positive size `kmallocInit` is given, and
whatever sizes are asked for later, the calls do not leave what they promise. -/
theorem not_growsByPage {initialHeapSize : UInt32} (hpos : 0 < initialHeapSize) (m : Paging)
    (sizes : List ℤ) : ¬ GrowsByPage m initialHeapSize sizes := by
  rintro ⟨s, hinit, hgrown, -⟩
  have hrun : kmallocInit m initialHeapSize = some s.paging := by
    rw [← Noted.kmallocInit_paging ⟨m, []⟩ initialHeapSize, hinit, Option.map_some]
  have hzero : s.paging.heapSize = 0 := by
    rw [kmallocInit, changeHeapSize] at hrun
    obtain ⟨diff, -, hgrow⟩ := Option.bind_eq_some_iff.mp hrun
    exact growHeap_heapSize hgrow
  have hsize := hgrown.heapSize
  have : 0 < initialHeapSize.toNat := UInt32.lt_iff_toNat_lt.mp hpos
  omega

/-- A heap of one page, from which `kmain` starts. -/
theorem not_growsByPage_booted : ¬ GrowsByPage booted.paging 0x1000 [0x1000] :=
  not_growsByPage (by decide) booted.paging [0x1000]

/-- Two calls that ask for the same page map it twice, and `heapSize` is still zero. -/
theorem heap_mapped_twice : ∃ s next, booted.kmallocInit 0x1000 = some s ∧
    s.step (.heap 0x1000) = some next ∧ s.paging.heapSize = 0 ∧ next.paging.heapSize = 0 ∧
    heapPages next.history = [0xD0000, 0xD0000] ∧ ¬ GrowsByPage booted.paging 0x1000 [0x1000] := by
  have hok := ok_booted.withPmm (cycled booted.paging.pmm 1)
  obtain ⟨m, hpage, hheap, hpmm⟩ := exists_heap_booted
  have hmapped := mapGood_heap_booted.mapped hok hpage
  have hok' := hok.map mapGood_heap_booted (Option.map_eq_some_iff.mpr ⟨m, hpage, rfl⟩)
  have hinit : booted.kmallocInit 0x1000 = some ⟨m, [⟨0xD0000, 0x200000, pageFlagWrt, true⟩]⟩ := by
    rw [← hheap, Noted.kmallocInit,
      show ((0x1000 : UInt32).toNat : ℤ).bmod 4294967296 = 0x1000 by decide]
    rfl
  have hzero : m.heapSize = 0 := memMapPage_heapSize hpage
  -- the slot of the heap has a table now
  have hdir : m.dir = 0x110 := hmapped.dir
  have htable : HasTable m.mem m.dir (0xD0000000 / 4194304) := by
    rw [hdir]
    exact hmapped.hasTable
  have hslot : SlotOk { m with pmm := cycled booted.paging.pmm 3 } (0xD0000000 / 4194304)
      pageFlagWrt := by
    refine ⟨fun h => htable.2 h.2, by decide, fun _ hself => ?_, fun h => absurd htable.1 h⟩
    have := hok'.apart _ 1023 (by decide) (by decide) htable hok'.recursive.table
      (hself.trans hok'.recursive.self.symm)
    cases this
  obtain ⟨m₂, hmap₂⟩ : ∃ m₂, memMapPage { m with pmm := cycled booted.paging.pmm 3 } 0xD0000000
      0x200000 pageFlagWrt = some m₂ :=
    exists_memMapPage (by decide) hok'.recursive hslot ⟨_, booted_alloc 3⟩
  have hstep : Noted.step ⟨m, [⟨0xD0000, 0x200000, pageFlagWrt, true⟩]⟩ (.heap 0x1000) =
      some ⟨m₂, [⟨0xD0000, 0x200000, pageFlagWrt, true⟩,
        ⟨0xD0000, 0x200000, pageFlagWrt, true⟩]⟩ := by
    have hdiff : heapDiff m 0x1000 = some 1 := by
      rw [heapDiff, hzero]
      rfl
    have halloc : pmmAllocPageFrame m.pmm = some (0x200000, cycled booted.paging.pmm 3) := by
      rw [hpmm]
      exact booted_alloc 2
    rw [Noted.step, hdiff, Option.bind_some, hzero, Noted.grow, halloc, Option.bind_some]
    refine (congrArg (fun next => next.bind (Noted.grow (ceilDiv 0 0x1000) 0 1))
      (Option.map_eq_some_iff.mpr ⟨m₂, hmap₂, rfl⟩)).trans rfl
  have hzero₂ := (Noted.step_heap hzero (by decide) (by decide) hstep).1
  refine ⟨_, _, hinit, hstep, hzero, hzero₂, rfl, ?_⟩
  rintro ⟨s, hrun, hgrown, -⟩
  obtain rfl := Option.some.inj (hinit.symm.trans hrun)
  have hsize := hgrown.heapSize
  rw [hzero] at hsize
  cases hsize

end MasterOS.Memory
