/-
# The way into a handler and back

Each vector has a stub that puts its number beside the registers it saves, calls the handler in
C with a pointer to them, and loads them again. The handler finds what the processor held when
it was interrupted, if the stub and the processor agree on who puts down the error code. When it
returns, all registers and the stack are as before. Only the segments are not: of the four that
the stub loads on its way in, `ds` is not loaded on its way out, so that they are as before if
and only if all of them held the selector of the kernel.
-/

import MasterOS.Device.Cpu
import MasterOS.Interrupt.Idt

namespace MasterOS.Interrupt

open MasterOS.Device MasterOS.Device.Cpu

/-! ## The code -/

/-- `struct InterruptRegisters`. -/
structure InterruptRegisters where
  cr2 : UInt32
  ds : UInt32
  edi : UInt32
  esi : UInt32
  ebp : UInt32
  esp : UInt32
  ebx : UInt32
  edx : UInt32
  ecx : UInt32
  eax : UInt32
  intNo : UInt32
  errCode : UInt32
  eip : UInt32
  csm : UInt32
  eflags : UInt32
  useResp : UInt32
  ss : UInt32
  deriving DecidableEq

/-- The structure that a pointer points to. -/
def regsAt (mem : Ram) (p : UInt32) : InterruptRegisters where
  cr2 := mem.load p
  ds := mem.load (p + 4)
  edi := mem.load (p + 8)
  esi := mem.load (p + 12)
  ebp := mem.load (p + 16)
  esp := mem.load (p + 20)
  ebx := mem.load (p + 24)
  edx := mem.load (p + 28)
  ecx := mem.load (p + 32)
  eax := mem.load (p + 36)
  intNo := mem.load (p + 40)
  errCode := mem.load (p + 44)
  eip := mem.load (p + 48)
  csm := mem.load (p + 52)
  eflags := mem.load (p + 56)
  useResp := mem.load (p + 60)
  ss := mem.load (p + 64)

/-- `isr_common_stub` and `irq_common_stub` up to the call of the handler. -/
def saveAll : List Instr :=
  [.pusha, .movSeg .eax .ds, .push .eax, .movCr2 .eax, .push .eax,
    .movLow .eax 0x10, .loadSeg .ds .eax, .loadSeg .es .eax, .loadSeg .fs .eax, .loadSeg .gs .eax,
    .pushEsp]

/-- And behind it. The selector that was saved goes into `dx`, not into `ds`. -/
def restoreAll : List Instr :=
  [.addEsp 8, .pop .ebx, .movLowReg .edx .ebx, .loadSeg .es .ebx, .loadSeg .fs .ebx,
    .loadSeg .gs .ebx, .popa, .addEsp 8, .sti, .iret]

/-- `isr_common_stub` and `irq_common_stub`, which differ in the function they call. -/
def commonStub : List Instr := saveAll ++ .call :: restoreAll

/-- The macros `ISR_NOERRCODE` and `IRQ`. -/
def stubNoErrCode (num : UInt32) : List Instr := .cli :: .pushImm 0 :: .pushImm num :: commonStub

/-- The macro `ISR_ERRCODE`. -/
def stubErrCode (num : UInt32) : List Instr := .cli :: .pushImm num :: commonStub

/-- The vectors with the macro `ISR_ERRCODE`. -/
def errCodeVectors : List ℕ := [8, 10, 11, 12, 13, 14]

/-- The stub of a vector: `isr0` to `isr31`, `irq0` to `irq15`, `isr128` and `isr177`. -/
def stub (vector : ℕ) : List Instr :=
  if vector ∈ errCodeVectors then stubErrCode (.ofNat vector)
  else stubNoErrCode (.ofNat vector)

/-- The code behind an interrupt, as far as the gate is present: the processor goes through the
table to what lies at the address of the gate. -/
def take (idt : Idt) (codeAt : UInt32 → List Instr) (callee : Cpu → Cpu) (vector : Fin 256)
    (err : Option UInt32) (s : Cpu) : Option Cpu :=
  let g := (idt vector).gate
  if g.present then some ((s.interrupt g.selector g.offset err).run callee (codeAt g.offset))
  else none

/-! ## Up to the call -/

section Entry

variable (s : Cpu) (num code base : UInt32) (callee : Cpu → Cpu)

/-- The selector of the data of the kernel. -/
def kernelData : UInt16 := 0x10

/-- What is in the low half behind `mov ax, 0x10`. -/
theorem lowHalf_toUInt16 (v : UInt32) : (lowHalf v kernelData).toUInt16 = kernelData := by
  have hzero : (0xFFFF0000 : UInt32).toUInt16 = 0 := rfl
  rw [lowHalf, UInt32.toUInt16_or, UInt32.toUInt16_and, hzero, UInt16.and_zero, UInt16.zero_or]
  rfl

/-- The words that `saveAll` puts down in front of the pointer. -/
def saved : List UInt32 :=
  [s.reg .eax, s.reg .ecx, s.reg .edx, s.reg .ebx, s.esp, s.reg .ebp, s.reg .esi, s.reg .edi,
    (s.seg .ds).toUInt32, s.cr2]

theorem run_saveAll : s.run callee saveAll =
    ((s.pushAll (saved s ++ [(s.pushAll (saved s)).esp])).setReg .eax
      (lowHalf s.cr2 kernelData)).setData kernelData := by
  have hrun : s.run callee saveAll =
      ((s.pushAll (saved s ++ [(s.pushAll (saved s)).esp])).setReg .eax
        (lowHalf s.cr2 kernelData)).setData (lowHalf s.cr2 kernelData).toUInt16 := by
    rw [← setSeg_data]
    simp only [saveAll, run_cons, exec, pusha, push_setReg, push_setSeg, setReg_setReg,
      setReg_reg_self, setSeg_reg, pushAll_seg, setReg_cr2, pushAll_cr2, setReg_esp, setSeg_esp,
      pushAll_snoc, List.cons_append, List.nil_append, saved]
    rfl
  rw [hrun, lowHalf_toUInt16]

/-- The words in front of the pointer, from the flags on. -/
def frame : List UInt32 :=
  [s.eflags, (s.seg .cs).toUInt32, s.eip, code, num] ++
    [s.reg .eax, s.reg .ecx, s.reg .edx, s.reg .ebx, s.esp - 20, s.reg .ebp, s.reg .esi,
      s.reg .edi, (s.seg .ds).toUInt32, s.cr2]

/-- The processor in the stub, when the error code and the number are on the stack. -/
def numbered : Cpu :=
  ((s.pushAll [s.eflags, (s.seg .cs).toUInt32, s.eip, code, num]).setSeg .cs 0x08).jump base
    (gateFlags s.eflags &&& 0xFFFFFDFF)

/-- The processor at the call of a handler. -/
def atCall : Cpu where
  reg := Function.update s.reg .eax (lowHalf s.cr2 kernelData)
  esp := s.esp - 64
  seg
    | .cs => 0x08
    | _ => kernelData
  eip := base
  eflags := gateFlags s.eflags &&& 0xFFFFFDFF
  cr2 := s.cr2
  mem := (s.pushAll (frame s num code ++ [s.esp - 60])).mem

theorem exec_cli_jump (eip eflags : UInt32) :
    (s.jump eip eflags).exec callee .cli = s.jump eip (eflags &&& 0xFFFFFDFF) := rfl

theorem run_stubNoErrCode : (s.interrupt 0x08 base none).run callee (stubNoErrCode num) =
    (numbered s num 0 base).run callee commonStub := by
  simp only [stubNoErrCode, run_cons, interrupt, exec_cli_jump]
  simp only [exec, push_jump, push_setSeg, pushAll_snoc]
  rfl

theorem run_stubErrCode : (s.interrupt 0x08 base (some code)).run callee (stubErrCode num) =
    (numbered s num code base).run callee commonStub := by
  simp only [stubErrCode, run_cons, interrupt, exec_cli_jump]
  simp only [exec, push_jump, push_setSeg, pushAll_snoc]
  rfl

theorem numbered_esp : (numbered s num code base).esp = s.esp - 20 :=
  pushAll_esp [s.eflags, (s.seg .cs).toUInt32, s.eip, code, num]

theorem numbered_reg : (numbered s num code base).reg = s.reg :=
  pushAll_reg [s.eflags, (s.seg .cs).toUInt32, s.eip, code, num]

theorem numbered_cr2 : (numbered s num code base).cr2 = s.cr2 :=
  pushAll_cr2 [s.eflags, (s.seg .cs).toUInt32, s.eip, code, num]

theorem numbered_seg : (numbered s num code base).seg = Function.update s.seg .cs 0x08 := by
  rw [← pushAll_seg (s := s) [s.eflags, (s.seg .cs).toUInt32, s.eip, code, num]]
  rfl

theorem saved_numbered : saved (numbered s num code base) =
    [s.reg .eax, s.reg .ecx, s.reg .edx, s.reg .ebx, s.esp - 20, s.reg .ebp, s.reg .esi,
      s.reg .edi, (s.seg .ds).toUInt32, s.cr2] := by
  rw [saved, numbered_esp, numbered_reg, numbered_cr2, numbered_seg]
  rfl

theorem numbered_pushAll_mem (l : List UInt32) :
    ((numbered s num code base).pushAll (saved (numbered s num code base) ++ l)).mem =
      (s.pushAll (frame s num code ++ l)).mem := by
  rw [saved_numbered, frame, List.append_assoc, pushAll_append s]
  exact pushAll_congr (s := numbered s num code base)
    (t := s.pushAll [s.eflags, (s.seg .cs).toUInt32, s.eip, code, num]) rfl rfl _

theorem run_saveAll_numbered :
    (numbered s num code base).run callee saveAll = atCall s num code base := by
  have hptr : ((numbered s num code base).pushAll (saved (numbered s num code base))).esp =
      s.esp - 60 := by
    rw [pushAll_esp, numbered_esp]
    show s.esp - 20 - 40 = _
    grind
  have hesp : ((numbered s num code base).pushAll
      (saved (numbered s num code base) ++ [s.esp - 60])).esp = s.esp - 64 := by
    rw [pushAll_esp, numbered_esp]
    show s.esp - 20 - 44 = s.esp - 64
    grind
  have hmem := numbered_pushAll_mem s num code base [s.esp - 60]
  rw [run_saveAll, hptr]
  generalize saved (numbered s num code base) ++ [s.esp - 60] = values at hesp hmem ⊢
  apply Cpu.ext
  · show Function.update (Cpu.pushAll _ values).reg _ _ = _
    rw [pushAll_reg, numbered_reg, numbered_cr2]
    rfl
  · exact hesp
  · funext sg
    have hcs : ((numbered s num code base).pushAll values).seg .cs = 0x08 := by
      rw [pushAll_seg, numbered_seg, Function.update_self]
    cases sg with
    | cs => exact hcs
    | _ => rfl
  · exact pushAll_eip values
  · exact pushAll_eflags values
  · exact (pushAll_cr2 values).trans (numbered_cr2 ..)
  · exact hmem

/-- **The way to the call**, if the processor puts down an error code where the stub does not. -/
theorem run_stub {vector : ℕ} {err : Option UInt32}
    (hagree : err.isSome ↔ vector ∈ errCodeVectors) :
    (s.interrupt 0x08 base err).run callee (stub vector) =
      (callee (atCall s (.ofNat vector) (err.getD 0) base)).run callee restoreAll := by
  have hcommon (code : UInt32) : (numbered s (.ofNat vector) code base).run callee commonStub =
      (callee (atCall s (.ofNat vector) code base)).run callee restoreAll := by
    rw [commonStub, run_append, run_saveAll_numbered, run_cons]
    rfl
  cases err with
  | none =>
      have hnot : vector ∉ errCodeVectors := fun h => absurd (hagree.mpr h) (by decide)
      rw [stub, if_neg hnot, run_stubNoErrCode, hcommon, Option.getD_none]
  | some code =>
      rw [stub, if_pos (hagree.mp rfl), run_stubErrCode, hcommon, Option.getD_some]

/-- The stack at the call, above the pointer. -/
theorem atCall_words : Words (atCall s num code base).mem ((atCall s num code base).esp + 4)
    ((frame s num code).reverse ++ [s.mem.load s.esp, s.mem.load (s.esp + 4)]) := by
  have hall : (s.pushAll (frame s num code ++ [s.esp - 60])).Stacked
      ((frame s num code ++ [s.esp - 60]).reverse ++
        [s.mem.load s.esp, s.mem.load (s.esp + 4)]) :=
    Stacked.pushAll ⟨rfl, rfl, True.intro⟩ (show 4 * 18 < 2 ^ 32 by decide)
  have hesp : (s.pushAll (frame s num code ++ [s.esp - 60])).esp = s.esp - 64 := pushAll_esp _
  rw [List.reverse_append, List.reverse_singleton] at hall
  have htail := hall.2
  rwa [hesp] at htail

/-- The pointer is on top of it. -/
theorem atCall_load : (atCall s num code base).mem.load (atCall s num code base).esp =
    (atCall s num code base).esp + 4 := by
  have hall : (s.pushAll (frame s num code ++ [s.esp - 60])).Stacked
      ((frame s num code ++ [s.esp - 60]).reverse ++ []) :=
    Stacked.pushAll True.intro (show 4 * 16 < 2 ^ 32 by decide)
  have hesp : (s.pushAll (frame s num code ++ [s.esp - 60])).esp = s.esp - 64 := pushAll_esp _
  rw [List.reverse_append, List.reverse_singleton, List.append_nil] at hall
  have hhead := hall.1
  rw [hesp] at hhead
  refine hhead.trans ?_
  show s.esp - 60 = s.esp - 64 + 4
  grind

/-- Below the interrupted stack pointer there are 64 bytes of the frame, and no other byte has
changed at the call. -/
theorem atCall_mem {x : UInt32} (h : 64 ≤ (s.esp - 1 - x).toNat) :
    (atCall s num code base).mem x = s.mem x :=
  pushAll_mem (frame s num code ++ [s.esp - 60]) h

end Entry

/-! ## Behind the call -/

/-- What a function in C keeps for its caller: the stack pointer, the segments, and the words
that the caller has on the stack above the argument. The argument is the function's own. -/
structure Returned (t t' : Cpu) : Prop where
  esp : t'.esp = t.esp
  seg : t'.seg = t.seg
  kept : ∀ x, (x - (t.esp + 4)).toNat < 60 → t'.mem x = t.mem x

/-- The interrupted program goes on with the memory that the handler leaves. -/
def resumed (s t' : Cpu) : Cpu :=
  { t' with
    reg := s.reg
    esp := s.esp
    seg := fun
      | .cs => s.seg .cs
      | .ds => kernelData
      | _ => s.seg .ds
    eip := s.eip
    eflags := s.eflags }

theorem run_restoreAll_of_words {s t : Cpu} {num code : UInt32} (callee : Cpu → Cpu)
    (hesp : t.esp = s.esp - 64) (hds : t.seg .ds = kernelData)
    (h : Words t.mem (t.esp + 4) (frame s num code).reverse) :
    t.run callee restoreAll = resumed s t := by
  have hwords : Words t.mem (t.esp + 4)
      [s.cr2, (s.seg .ds).toUInt32, s.reg .edi, s.reg .esi, s.reg .ebp, s.esp - 20, s.reg .ebx,
        s.reg .edx, s.reg .ecx, s.reg .eax, num, code, s.eip, (s.seg .cs).toUInt32, s.eflags] := h
  simp only [Words, UInt32.add_assoc, UInt32.reduceAdd] at hwords
  obtain ⟨-, hsel, hedi, hesi, hebp, -, hebx, hedx, hecx, heax, -, -, heip, hcs, heflags, -⟩ :=
    hwords
  simp only [restoreAll, run_cons, run_nil, exec, popReg, drop, popa, iret, setReg, setSeg,
    UInt32.add_assoc, UInt32.reduceAdd, hsel, hedi, hesi, hebp, hebx, hedx, hecx, heax, heip, hcs,
    heflags]
  apply Cpu.ext
  · funext r
    cases r <;> rfl
  · show t.esp + 64 = s.esp
    rw [hesp]
    grind
  · funext sg
    cases sg <;> simp [resumed, hds]
  all_goals rfl

/-- **Back in the program**: a handler that keeps the frame is followed by the program as it
was, but for its segments. -/
theorem Returned.run_restoreAll {s t' : Cpu} {num code base : UInt32} (callee : Cpu → Cpu)
    (h : Returned (atCall s num code base) t') : t'.run callee restoreAll = resumed s t' := by
  have hwords := atCall_words s num code base
  have hshort : Words (atCall s num code base).mem ((atCall s num code base).esp + 4)
      (frame s num code).reverse := hwords.of_append
  have hkept : Words t'.mem (t'.esp + 4) (frame s num code).reverse := by
    rw [h.esp]
    refine hshort.congr (b := (atCall s num code base).esp + 4) ?_ fun x _ hx => h.kept x ?_
    · rw [UInt32.sub_self]
      show 0 + 4 * 15 < 2 ^ 32
      decide
    · rw [UInt32.sub_self] at hx
      exact hx
  exact run_restoreAll_of_words callee h.esp (congrFun h.seg .ds) hkept

end MasterOS.Interrupt
