/-
# The program loader

The memory part of `exec_run`. The pages of a program are mapped to the frames of the same
numbers, from `LOAD_ADDRESS` on, and its bytes are copied there one by one. `kmain` leaves
the table of these pages empty but for the screen, and every program that is loaded, and
that stays in its own frames, leaves in it nothing but such mappings.
-/

import MasterOS.Memory.FrameRange
import MasterOS.Memory.Heap

namespace MasterOS.Memory

open MasterOS.Device MasterOS.Math

/-! ## The code -/

/-- `LOAD_ADDRESS`. -/
def loadAddress : ℕ := 0x00300000

/-- `MAX_PROGRAM_SIZE`. -/
def maxProgramSize : ℕ := 64 * 1024

/-- The loop that maps the pages, with `left` to go from page `p` on. -/
def mapProgram : (left p : ℕ) → Paging → Option Paging
  | 0, _, m => some m
  | left + 1, p, m =>
      let vaddr := (loadAddress + p * 0x1000) % 2 ^ 32
      (memMapPage m vaddr vaddr (pageFlagPres ||| pageFlagWrt)).bind (mapProgram left (p + 1))

/-- The loop that copies the buffer, with `left` bytes to go from byte `i` on. -/
def copyProgram (programBuf : ℕ → UInt8) : (left i : ℕ) → Paging → Option Paging
  | 0, _, m => some m
  | left + 1, i, m =>
      (storeByte m.mem m.dir (loadAddress + i) (programBuf i)).bind fun mem =>
        copyProgram programBuf left (i + 1) { m with mem := mem }

/-- What `exec_run` does between the read and the call of the program. -/
def loadProgram (m : Paging) (programBuf : ℕ → UInt8) (size : ℕ) : Option Paging :=
  (mapProgram (ceilDiv size 0x1000) 0 m).bind (copyProgram programBuf size 0)

/-- What `kmain` does to memory before the shell takes over. -/
def kmainMemory (mem : Mem) (dir : ℕ) (memUpper : UInt32) : Option Paging :=
  (kmallocInit (initMemory mem dir (memUpper * 1024) 0x200000) 0x1000).bind fun m =>
    memMapPage m 0xB8000 0xB8000 (pageFlagPres ||| pageFlagWrt)

/-! ## What a loader is for -/

/-- The page of `LOAD_ADDRESS` is mapped. -/
def LoadMapped (m : Paging) : Prop := ∃ frame, walk m.mem m.dir (loadAddress / 4096) = some frame

/-- The bytes stand at `LOAD_ADDRESS`, all of them. -/
def Placed (m : Paging) (size : ℕ) (data : ℕ → UInt8) : Prop :=
  ∀ i < size, loadByte m.mem m.dir (loadAddress + i) = some (data i)

/-- The frames of programs. -/
def ProgramFrame (f : ℕ) : Prop := 0x300 ≤ f ∧ f < 0x310

/-- The memory a program can find: what `kmain` leaves, what `exec_run` makes of it for any
file it can take in, and what a program makes of it that writes its own frames only. The
directory lies in the kernel's image, between one megabyte and two. -/
inductive ProgramMemory : Paging → Prop
  | boot {mem : Mem} {dir : ℕ} {memUpper : UInt32} {m : Paging} : 0x100 ≤ dir → dir < 0x200 →
      kmainMemory mem dir memUpper = some m → ProgramMemory m
  | load {m m' : Paging} {programBuf : ℕ → UInt8} {size : ℕ} : ProgramMemory m →
      size ≤ maxProgramSize → loadProgram m programBuf size = some m' → ProgramMemory m'
  | ran {m m' : Paging} : ProgramMemory m → m'.dir = m.dir →
      (∀ f w, ¬ ProgramFrame f → m'.mem f w = m.mem f w) → ProgramMemory m'

/-! ## The table of the program's pages -/

/-- The entry that maps a page to the frame of its number. -/
def identityEntry (f : ℕ) : ℕ := f * 4096 ||| pageFlagPres ||| (pageFlagPres ||| pageFlagWrt)

theorem identityEntry_spec (f : ℕ) : Present (identityEntry f) ∧ frameOf (identityEntry f) = f := by
  refine ⟨present_or (Or.inr (by decide)), ?_⟩
  rw [identityEntry, frameOf_or_low _ (by decide), frameOf_or_low _ (by decide)]
  exact Nat.mul_div_cancel f (by decide)

/-- The pages of programs have a table outside of the frames of programs, with nothing in it
for them but mappings to the frames of their numbers. -/
structure ProgramTable (m : Paging) : Prop where
  recursive : Recursive m.mem m.dir
  table : HasTable m.mem m.dir 0
  dir : ¬ ProgramFrame m.dir
  frame : ¬ ProgramFrame (tableOf m.mem m.dir 0)
  apart : tableOf m.mem m.dir 0 ≠ m.dir
  entry : ∀ f, ProgramFrame f → m.mem (tableOf m.mem m.dir 0) f = 0 ∨
    m.mem (tableOf m.mem m.dir 0) f = identityEntry f
  behind : m.mem (tableOf m.mem m.dir 0) 0x310 = 0

/-- A change of memory that only writes the frames of programs and maps their pages. -/
structure OnlyPrograms (m m' : Paging) : Prop where
  dir : m'.dir = m.dir
  word : ∀ f w, m'.mem f w = m.mem f w ∨ ProgramFrame f ∨
    f = tableOf m.mem m.dir 0 ∧ ProgramFrame w ∧ m'.mem f w = identityEntry w

section Table

variable {m m' : Paging}

theorem OnlyPrograms.keeps (hstep : OnlyPrograms m m') {f w : ℕ} (hf : ¬ ProgramFrame f)
    (hw : f = tableOf m.mem m.dir 0 → ¬ ProgramFrame w) : m'.mem f w = m.mem f w := by
  rcases hstep.word f w with hsame | hprogram | ⟨htable, hprogram, -⟩
  · exact hsame
  · exact absurd hprogram hf
  · exact absurd hprogram (hw htable)

variable (h : ProgramTable m)
include h

theorem ProgramTable.keeps_dir (hstep : OnlyPrograms m m') (w : ℕ) :
    m'.mem m.dir w = m.mem m.dir w :=
  hstep.keeps h.dir fun htable => absurd htable.symm h.apart

theorem ProgramTable.tableOf_eq (hstep : OnlyPrograms m m') :
    tableOf m'.mem m'.dir 0 = tableOf m.mem m.dir 0 := by
  rw [tableOf, hstep.dir, h.keeps_dir hstep, tableOf]

/-- The table stays good for programs. -/
theorem ProgramTable.step (hstep : OnlyPrograms m m') : ProgramTable m' := by
  have hdir := hstep.dir
  have hframe := h.tableOf_eq hstep
  have hword (w : ℕ) := h.keeps_dir hstep w
  refine ⟨?_, ?_, ?_, ?_, ?_, fun f hf => ?_, ?_⟩
  · rw [hdir]
    exact h.recursive.of_eq (hword 1023)
  · rw [HasTable, hdir, hword]
    exact h.table
  · rw [hdir]
    exact h.dir
  · rw [hframe]
    exact h.frame
  · rw [hframe, hdir]
    exact h.apart
  · rw [hframe]
    rcases hstep.word (tableOf m.mem m.dir 0) f with hsame | hprogram | ⟨-, -, hmapped⟩
    · rw [hsame]
      exact h.entry f hf
    · exact absurd hprogram h.frame
    · exact Or.inr hmapped
  · rw [hframe, hstep.keeps h.frame fun _ => by unfold ProgramFrame; omega]
    exact h.behind

/-- The translation of a page in the reach of the table. -/
theorem ProgramTable.walk_eq {page : ℕ} (hpage : page < 1024) : walk m.mem m.dir page =
    if Present (m.mem (tableOf m.mem m.dir 0) page) then
      some (frameOf (m.mem (tableOf m.mem m.dir 0) page))
    else none := by
  have hslot : page / 1024 = 0 := Nat.div_eq_of_lt hpage
  rw [walk_of_hasTable (hslot ▸ h.table), hslot, Nat.mod_eq_of_lt hpage]

theorem ProgramTable.walk_of_mapped {f : ℕ} (hf : ProgramFrame f)
    (hmapped : m.mem (tableOf m.mem m.dir 0) f = identityEntry f) :
    walk m.mem m.dir f = some f := by
  obtain ⟨hpresent, hframe⟩ := identityEntry_spec f
  rw [h.walk_eq (lt_of_lt_of_le hf.2 (by decide)), hmapped, if_pos hpresent, hframe]

/-- Behind the pages of programs nothing is mapped. -/
theorem ProgramTable.loadByte_behind :
    loadByte m.mem m.dir (loadAddress + maxProgramSize) = none := by
  have hnone : walk m.mem m.dir ((loadAddress + maxProgramSize) / 4096) = none := by
    rw [show (loadAddress + maxProgramSize) / 4096 = 0x310 from rfl, h.walk_eq (by decide),
      h.behind, if_neg (by decide)]
  rw [loadByte, hnone, Option.map_none]

/-! ## The loops -/

/-- Mapping one page of a program writes its entry. -/
theorem ProgramTable.memMapPage_eq {f : ℕ} (hf : ProgramFrame f) :
    memMapPage m (f * 4096) (f * 4096) (pageFlagPres ||| pageFlagWrt) = some { m with
      mem := m.mem.set (tableOf m.mem m.dir 0) f (identityEntry f)
      memNumVpages := m.memNumVpages + 1 } := by
  have hlt := hf.2
  have hslot : f * 4096 / 4194304 = 0 := by omega
  have hindex : f * 4096 / 4096 % 1024 = f := by omega
  have hentry : f * 4096 ||| pageFlagPres ||| m.mem (tableOf m.mem m.dir 0) f |||
      (pageFlagPres ||| pageFlagWrt) = identityEntry f := by
    rcases h.entry f hf with hzero | hmapped
    · rw [hzero, Nat.or_zero, identityEntry]
    · rw [hmapped]
      apply Nat.eq_of_testBit_eq
      intro i
      simp only [identityEntry, Nat.testBit_or]
      cases (f * 4096).testBit i <;> cases pageFlagPres.testBit i <;> simp
  rw [memMapPage_of_table h.recursive (by omega) (hslot ▸ h.table.1) rfl, hslot, hindex, hentry]

end Table

theorem onlyPrograms_map (m : Paging) {f : ℕ} (hf : ProgramFrame f) : OnlyPrograms m { m with
    mem := m.mem.set (tableOf m.mem m.dir 0) f (identityEntry f)
    memNumVpages := m.memNumVpages + 1 } := by
  refine ⟨rfl, fun g w => ?_⟩
  by_cases hword : g = tableOf m.mem m.dir 0 ∧ w = f
  · obtain ⟨rfl, rfl⟩ := hword
    exact Or.inr (Or.inr ⟨rfl, hf, m.mem.set_self ..⟩)
  · exact Or.inl (if_neg hword)

theorem OnlyPrograms.refl (m : Paging) : OnlyPrograms m m := ⟨rfl, fun _ _ => Or.inl rfl⟩

theorem OnlyPrograms.trans {m m' m'' : Paging} (h : ProgramTable m) (hfirst : OnlyPrograms m m')
    (hsecond : OnlyPrograms m' m'') : OnlyPrograms m m'' := by
  refine ⟨hsecond.dir.trans hfirst.dir, fun f w => ?_⟩
  rcases hsecond.word f w with hsame | hprogram | ⟨htable, hw, hmapped⟩
  · rw [hsame]
    exact hfirst.word f w
  · exact Or.inr (Or.inl hprogram)
  · rw [h.tableOf_eq hfirst] at htable
    exact Or.inr (Or.inr ⟨htable, hw, hmapped⟩)

/-- The pages that the first loop goes through are mapped when it is done, and no others. -/
theorem ProgramTable.mapProgram_spec {left p : ℕ} (hroom : p + left ≤ 16) {m : Paging}
    (h : ProgramTable m) : ∃ m', mapProgram left p m = some m' ∧ OnlyPrograms m m' ∧
      ∀ f, ProgramFrame f → m'.mem (tableOf m.mem m.dir 0) f =
        if 0x300 + p ≤ f ∧ f < 0x300 + p + left then identityEntry f
        else m.mem (tableOf m.mem m.dir 0) f := by
  induction left generalizing p m with
  | zero => exact ⟨m, rfl, .refl m, fun f _ => by rw [if_neg (by omega)]⟩
  | succ left ih =>
      have hf : ProgramFrame (0x300 + p) := by
        unfold ProgramFrame
        omega
      have haddr : (loadAddress + p * 0x1000) % 2 ^ 32 = (0x300 + p) * 4096 := by
        unfold loadAddress
        omega
      have hstep := onlyPrograms_map m hf
      obtain ⟨m', hrest, honly, hentries⟩ := @ih (p + 1) (by omega) _ (h.step hstep)
      refine ⟨m', ?_, .trans h hstep honly, fun f hprogram => ?_⟩
      · rw [mapProgram, haddr, h.memMapPage_eq hf, Option.bind_some, hrest]
      · rw [h.tableOf_eq hstep] at hentries
        rw [hentries f hprogram]
        by_cases hfirst : f = 0x300 + p
        · subst hfirst
          rw [if_neg (by omega), if_pos (by omega)]
          exact m.mem.set_self ..
        · dsimp only
          rw [m.mem.set_of_ne_word hfirst]
          by_cases hlater : 0x300 + (p + 1) ≤ f ∧ f < 0x300 + (p + 1) + left
          · rw [if_pos hlater, if_pos (by omega)]
          · rw [if_neg hlater, if_neg (by omega)]

/-- The second loop writes the bytes it goes through when their pages are mapped. -/
theorem ProgramTable.copyProgram_spec {programBuf : ℕ → UInt8} {left i : ℕ}
    (hroom : i + left ≤ maxProgramSize) {m : Paging} (h : ProgramTable m)
    (hmapped : ∀ f, 0x300 ≤ f → f * 4096 < loadAddress + (i + left) →
      m.mem (tableOf m.mem m.dir 0) f = identityEntry f) :
    ∃ m', copyProgram programBuf left i m = some m' ∧ OnlyPrograms m m' ∧
      (∀ w, m'.mem (tableOf m.mem m.dir 0) w = m.mem (tableOf m.mem m.dir 0) w) ∧
      ∀ k < maxProgramSize, m'.mem.byte ((loadAddress + k) / 4096) ((loadAddress + k) % 4096) =
        if i ≤ k ∧ k < i + left then programBuf k
        else m.mem.byte ((loadAddress + k) / 4096) ((loadAddress + k) % 4096) := by
  induction left generalizing i m with
  | zero => exact ⟨m, rfl, .refl m, fun _ => rfl, fun k _ => by rw [if_neg (by omega)]⟩
  | succ left ih =>
      have hload : loadAddress = 0x300 * 4096 := rfl
      have hmax : maxProgramSize = 0x10 * 4096 := rfl
      generalize hframe : (loadAddress + i) / 4096 = f
      have hf : ProgramFrame f := by
        unfold ProgramFrame
        omega
      have hwalk := h.walk_of_mapped hf (hmapped f hf.1 (by omega))
      have hstore : storeByte m.mem m.dir (loadAddress + i) (programBuf i) =
          some (m.mem.setByte f ((loadAddress + i) % 4096) (programBuf i)) := by
        rw [storeByte, hframe, hwalk, Option.map_some]
      have htable (w : ℕ) := m.mem.setByte_of_ne_frame (show tableOf m.mem m.dir 0 ≠ f from
        fun heq => h.frame (heq ▸ hf)) ((loadAddress + i) % 4096) (programBuf i) w
      generalize hnext : m.mem.setByte f ((loadAddress + i) % 4096) (programBuf i) = mem
        at hstore htable
      have hstep : OnlyPrograms m { m with mem := mem } := by
        refine ⟨rfl, fun g w => ?_⟩
        by_cases hg : g = f
        · exact Or.inr (Or.inl (hg ▸ hf))
        · exact Or.inl (hnext ▸ m.mem.setByte_of_ne_frame hg ..)
      have htableOf := h.tableOf_eq hstep
      obtain ⟨m', hrest, honly, hkept, hbytes⟩ := @ih (i + 1) (by omega) { m with mem := mem }
        (h.step hstep) fun g hg hlt => by
          rw [htableOf]
          exact (htable g).trans (hmapped g hg (by omega))
      rw [htableOf] at hkept
      refine ⟨m', ?_, .trans h hstep honly, fun w => (hkept w).trans (htable w), fun k hk => ?_⟩
      · rw [copyProgram, hstore, Option.bind_some, hrest]
      · rw [hbytes k hk]
        dsimp only
        rw [← hnext, Mem.byte_setByte]
        by_cases hfirst : k = i
        · subst hfirst
          rw [if_neg (by omega), if_pos ⟨hframe, rfl⟩, if_pos (by omega)]
        · rw [if_neg (show ¬ ((loadAddress + k) / 4096 = f ∧ (loadAddress + k) % 4096 =
            (loadAddress + i) % 4096) by omega)]
          by_cases hlater : i + 1 ≤ k ∧ k < i + 1 + left
          · rw [if_pos hlater, if_pos (by omega)]
          · rw [if_neg hlater, if_neg (by omega)]

/-- A file of at most 64 KB is loaded whole. -/
theorem ProgramTable.loadProgram_spec {m : Paging} (h : ProgramTable m) (programBuf : ℕ → UInt8)
    {size : ℕ} (hsize : size ≤ maxProgramSize) : ∃ m', loadProgram m programBuf size = some m' ∧
      OnlyPrograms m m' ∧ (size = 0 → m' = m) ∧ Placed m' size programBuf := by
  have hload : loadAddress = 0x300 * 4096 := rfl
  have hmax : maxProgramSize = 0x10 * 4096 := rfl
  have hpages : ceilDiv size 0x1000 = (size + 4095) / 4096 := by
    unfold ceilDiv
    omega
  obtain ⟨mapped, hmap, honly, hentries⟩ :=
    @ProgramTable.mapProgram_spec (ceilDiv size 0x1000) 0 (by omega) m h
  have hmapped := h.step honly
  have htable := h.tableOf_eq honly
  have hentry (f : ℕ) (hf : 0x300 ≤ f) (hlt : f * 4096 < loadAddress + size) :
      mapped.mem (tableOf mapped.mem mapped.dir 0) f = identityEntry f := by
    rw [htable, hentries f ⟨hf, by omega⟩, if_pos (by omega)]
  obtain ⟨m', hcopy, honly', hkept, hbytes⟩ :=
    @ProgramTable.copyProgram_spec programBuf size 0 (by omega) mapped hmapped
      fun f hf hlt => hentry f hf (by omega)
  have htable' := hmapped.tableOf_eq honly'
  refine ⟨m', ?_, .trans h honly honly', ?_, fun i hi => ?_⟩
  · rw [loadProgram, hmap, Option.bind_some, hcopy]
  · rintro rfl
    obtain rfl : m = mapped := Option.some.inj hmap
    exact (Option.some.inj hcopy).symm
  · have hf : ProgramFrame ((loadAddress + i) / 4096) := by
      unfold ProgramFrame
      omega
    have hwalk := (hmapped.step honly').walk_of_mapped hf (by
      rw [htable', hkept]
      exact hentry _ hf.1 (by omega))
    rw [loadByte, hwalk, Option.map_some, hbytes i (by omega), if_pos (by omega)]

/-- **What `exec_run` has placed when it calls the program.** It is the whole file, on a page
that is mapped, exactly when the file has at most 64 KB and, if it is empty, the page was
mapped before. -/
theorem ProgramTable.placed_iff {m m' : Paging} (h : ProgramTable m) {programBuf data : ℕ → UInt8}
    {size : ℕ} (hbuf : ∀ i < min size maxProgramSize, programBuf i = data i)
    (hload : loadProgram m programBuf (min size maxProgramSize) = some m') :
    LoadMapped m' ∧ Placed m' size data ↔
      size ≤ maxProgramSize ∧ (size = 0 → LoadMapped m) := by
  obtain ⟨m₁, hload₁, honly, hempty, hplaced⟩ :=
    h.loadProgram_spec programBuf (Nat.min_le_right size maxProgramSize)
  obtain rfl : m' = m₁ := Option.some.inj (hload.symm.trans hload₁)
  constructor
  · rintro ⟨hmapped, hwhole⟩
    refine ⟨?_, fun hzero => ?_⟩
    · by_contra hlong
      have hbyte := hwhole maxProgramSize (by omega)
      rw [(h.step honly).loadByte_behind] at hbyte
      exact absurd hbyte (by simp)
    · rw [← hempty (by rw [hzero, Nat.zero_min])]
      exact hmapped
  · rintro ⟨hle, hmapped⟩
    rw [Nat.min_eq_left hle] at hbuf hempty hplaced
    have hwhole : Placed m' size data := fun i hi => by rw [hplaced i hi, hbuf i hi]
    refine ⟨?_, hwhole⟩
    by_cases hzero : size = 0
    · rw [hempty hzero]
      exact hmapped hzero
    · obtain ⟨frame, hwalk, -⟩ := Option.map_eq_some_iff.mp (hwhole 0 (by omega))
      exact ⟨frame, hwalk⟩

/-! ## What `kmain` leaves -/

/-- An allocator over the frames from 512 on, at any point of its run. -/
def KmainFrames (pmm : Pmm) : Prop :=
  ∃ first, first.pmb = (fun _ => 0) ∧ first.start = 64 ∧
    (first.start < first.stop ∧ (∃ n, pmm = cycled first n) ∨ first.stop ≤ first.start ∧ pmm = first)

theorem kmainFrames_init (memHigh : UInt32) : KmainFrames (pmmInit 0x200000 memHigh) := by
  refine ⟨pmmInit 0x200000 memHigh, rfl, pmmInit_start (by decide), ?_⟩
  rcases Nat.lt_or_ge (pmmInit 0x200000 memHigh).start (pmmInit 0x200000 memHigh).stop with
    hsome | hnone
  · exact Or.inl ⟨hsome, 0, (cycled_zero rfl).symm⟩
  · exact Or.inr ⟨hnone, rfl⟩

/-- It hands out frame 512 or 513, or none. -/
theorem KmainFrames.alloc {pmm : Pmm} (h : KmainFrames pmm) :
    ∃ addr pmm', pmmAllocPageFrame pmm = some (addr, pmm') ∧ KmainFrames pmm' ∧
      (frameOf addr = 0 ∨ frameOf addr = 512 ∨ frameOf addr = 513) := by
  obtain ⟨first, hfresh, hstart, ⟨hsome, n, rfl⟩ | ⟨hnone, rfl⟩⟩ := h
  · have hcall := pmmAllocPageFrame_cycled hfresh (by rw [hstart]; decide) hsome n
    refine ⟨_, _, hcall, ⟨first, hfresh, hstart, Or.inl ⟨hsome, _, rfl⟩⟩, Or.inr ?_⟩
    rw [cycleAddr, hstart, frameOf]
    omega
  · refine ⟨0, pmm, ?_, ⟨pmm, hfresh, hstart, Or.inr ⟨hnone, rfl⟩⟩, Or.inl rfl⟩
    rw [pmmAllocPageFrame, Nat.sub_eq_zero_of_le hnone, allocFrom]

/-- Mapping a page in an empty slot makes a table with nothing else in it. -/
theorem memMapPage_new {m : Paging} {virtualAddr physicalAddr flags : ℕ}
    (hrec : Recursive m.mem m.dir) (hdir : 0x100 ≤ m.dir ∧ m.dir < 0x200)
    (hframes : KmainFrames m.pmm) (hslot : virtualAddr / 4194304 < 1023)
    (hempty : m.mem m.dir (virtualAddr / 4194304) = 0) (hlow : flags < 4096)
    (hlarge : ¬ Large flags) :
    ∃ m', memMapPage m virtualAddr physicalAddr flags = some m' ∧ m'.dir = m.dir ∧
      KmainFrames m'.pmm ∧ HasTable m'.mem m.dir (virtualAddr / 4194304) ∧
      (∀ w, w ≠ virtualAddr / 4194304 → m'.mem m.dir w = m.mem m.dir w) ∧
      (tableOf m'.mem m.dir (virtualAddr / 4194304) < 0x100 ∨
        0x200 ≤ tableOf m'.mem m.dir (virtualAddr / 4194304) ∧
          tableOf m'.mem m.dir (virtualAddr / 4194304) < 0x300) ∧
      ∀ w < 1024, w ≠ virtualAddr / 4096 % 1024 →
        m'.mem (tableOf m'.mem m.dir (virtualAddr / 4194304)) w = 0 := by
  obtain ⟨addr, pmm, halloc, hframes', hframe⟩ := hframes.alloc
  have hnone : ¬ Present (m.mem m.dir (virtualAddr / 4194304)) := by
    rw [hempty]
    decide
  have hok : SlotOk m (virtualAddr / 4194304) flags := by
    refine ⟨fun h => hnone h.1, hlow, fun h => absurd h.1 hnone, fun _ => ⟨hlarge, ?_⟩⟩
    intro addr' pmm' h
    rw [← (Prod.mk.inj (Option.some.inj (halloc.symm.trans h))).1]
    omega
  obtain ⟨m', hmap⟩ := @exists_memMapPage m virtualAddr physicalAddr flags hslot hrec hok
    ⟨_, halloc⟩
  obtain ⟨ensured, hensured, hdir', -, hpmm, hmem⟩ := memMapPage_spec hslot hrec hok hmap
  obtain ⟨-, addr', halloc', hnew, hzero, -⟩ : ¬ Present (m.mem m.dir (virtualAddr / 4194304)) ∧ _ :=
    hensured.frames.resolve_left fun hold => hnone hold.1.1
  obtain ⟨rfl, rfl⟩ := Prod.mk.inj (Option.some.inj (halloc.symm.trans halloc'))
  have hne : m.dir ≠ frameOf addr := by omega
  have hword (w : ℕ) : m'.mem m.dir w = ensured.mem m.dir w := by
    rw [hmem, hnew]
    exact ensured.mem.set_of_ne_frame hne ..
  have htable : tableOf m'.mem m.dir (virtualAddr / 4194304) = frameOf addr := by
    rw [tableOf, hword, ← hnew, tableOf]
  refine ⟨m', hmap, hdir', hpmm ▸ hframes', ?_, fun w hw => (hword w).trans (hensured.other w hw),
    ?_, fun w hw hne' => ?_⟩
  · rw [HasTable, hword]
    exact hensured.hasTable
  · rw [htable]
    omega
  · rw [htable, hmem, ensured.mem.set_of_ne_word hne']
    exact hzero w hw

/-- `kmain` comes through, and leaves the pages of programs with an empty table. -/
theorem exists_kmainMemory {dir : ℕ} (hdir : 0x100 ≤ dir ∧ dir < 0x200) (mem : Mem)
    (memUpper : UInt32) : ∃ m, kmainMemory mem dir memUpper = some m ∧ ProgramTable m ∧
      ¬ LoadMapped m := by
  generalize hstart : initMemory mem dir (memUpper * 1024) 0x200000 = start
  have hword (w : ℕ) (hw : w < 1024) : start.mem dir w =
      if w = 0 then 0 else if w = 1023 then dir * 4096 ||| pageFlagPres ||| pageFlagWrt
      else bootPageDir w := hstart ▸ initMemory_word mem dir (memUpper * 1024) 0x200000 hw
  have hstartDir : start.dir = dir := hstart ▸ rfl
  have hrec : Recursive start.mem dir :=
    hstart ▸ recursive_initMemory mem dir (memUpper * 1024) 0x200000
  have hframes : KmainFrames start.pmm := hstart ▸ kmainFrames_init (memUpper * 1024)
  -- the first page of the heap
  obtain ⟨phys, pmm, halloc, hframes₁, -⟩ := hframes.alloc
  obtain ⟨heap, hheap, hheapDir, hframes₂, -, hother, -, -⟩ :=
    @memMapPage_new { start with heapSize := 0, pmm := pmm } 0xD0000000 phys pageFlagWrt
      (hstartDir ▸ hrec) (hstartDir ▸ hdir) hframes₁ (by decide)
      (by
        dsimp only
        rw [hstartDir, hword _ (by decide), if_neg (by decide), if_neg (by decide)]
        decide)
      (by decide) (by decide)
  have hkmalloc : kmallocInit start 0x1000 = some heap := by
    have hdiff : heapDiff { start with heapSize := 0 } 0x1000 = some 1 := by
      rw [heapDiff, if_pos (by decide)]
      dsimp only
      decide +kernel
    rw [kmallocInit, show ((0x1000 : UInt32).toNat : ℤ).bmod 4294967296 = 0x1000 by decide,
      changeHeapSize, hdiff, Option.bind_some, growHeap, halloc, Option.bind_some]
    dsimp only
    rw [show ceilDiv 0 0x1000 = 0 by decide +kernel, show heapAddr 0 0 = 0xD0000000 by decide]
    exact (congrArg (fun next => next.bind (growHeap 0 0 1)) hheap).trans rfl
  dsimp only at hheapDir hother
  rw [hstartDir] at hheapDir hother
  -- the page of the screen
  obtain ⟨m, hmap, hmDir, -, htable, hother', hframe, hzero⟩ :=
    @memMapPage_new heap 0xB8000 0xB8000 (pageFlagPres ||| pageFlagWrt)
      (hheapDir ▸ hrec.of_eq (hother 1023 (by decide))) (hheapDir ▸ hdir) hframes₂ (by decide)
      (by
        rw [hheapDir, hother _ (by decide), hword _ (by decide)]
        rfl)
      (by decide) (by decide)
  rw [hheapDir, show 0xB8000 / 4194304 = 0 from rfl] at htable hother' hframe hzero
  rw [hheapDir] at hmDir
  have hgood : ProgramTable m := by
    refine ⟨?_, ?_, ?_, ?_, ?_, fun f hf => Or.inl ?_, ?_⟩ <;> rw [hmDir]
    · exact hrec.of_eq ((hother' 1023 (by decide)).trans (hother 1023 (by decide)))
    · exact htable
    · unfold ProgramFrame
      omega
    · unfold ProgramFrame
      omega
    · omega
    · have hlow := hf.1
      have hhigh := hf.2
      exact hzero f (by omega) (by omega)
    · exact hzero 0x310 (by decide) (by decide)
  refine ⟨m, ?_, hgood, ?_⟩
  · rw [kmainMemory, hstart, hkmalloc, Option.bind_some, hmap]
  · rintro ⟨frame, hwalk⟩
    rw [show loadAddress / 4096 = 0x300 from rfl, hgood.walk_eq (by decide), hmDir,
      hzero 0x300 (by decide) (by decide), if_neg (by decide)] at hwalk
    exact absurd hwalk (by simp)

/-- Every program finds the table of its pages so. -/
theorem ProgramMemory.table {m : Paging} (h : ProgramMemory m) : ProgramTable m := by
  induction h with
  | boot hlow hhigh hboot =>
      obtain ⟨m, hkmain, htable, -⟩ := exists_kmainMemory ⟨hlow, hhigh⟩ _ _
      obtain rfl := Option.some.inj (hboot.symm.trans hkmain)
      exact htable
  | load _ hsize hload ih =>
      obtain ⟨m', hspec, honly, -⟩ := ih.loadProgram_spec _ hsize
      obtain rfl := Option.some.inj (hload.symm.trans hspec)
      exact ih.step honly
  | @ran m m' _ hdir hsame ih =>
      refine ih.step ⟨hdir, fun f w => ?_⟩
      by_cases hf : ProgramFrame f
      · exact Or.inr (Or.inl hf)
      · exact Or.inl (hsame f w hf)

end MasterOS.Memory
