/-
# A processor with a stack

Enough of a 32-bit processor to follow an interrupt: its registers, its segments, its flags, and
a memory of bytes. Everything that is said about the stack is said of the list of words that it
begins with. What the arithmetic does to the flags is left out: all of them are loaded again
before an interrupt returns.
-/

import Mathlib.Data.Nat.Notation
import Mathlib.Data.List.Basic
import Mathlib.Data.UInt
import Mathlib.Logic.Function.Basic

namespace MasterOS.Device

/-! ## Memory -/

/-- A byte at each address. -/
abbrev Ram := UInt32 → UInt8

/-- The word at an address, its low byte first. -/
def Ram.load (mem : Ram) (a : UInt32) : UInt32 :=
  .ofNat ((mem a).toNat + 256 * (mem (a + 1)).toNat + 65536 * (mem (a + 2)).toNat +
    16777216 * (mem (a + 3)).toNat)

/-- Put a word at an address. -/
def Ram.store (mem : Ram) (a v : UInt32) : Ram := fun x =>
  if (x - a).toNat < 4 then .ofNat (v.toNat / 256 ^ (x - a).toNat) else mem x

/-- The memory begins with these words at an address. -/
def Words (mem : Ram) : UInt32 → List UInt32 → Prop
  | _, [] => True
  | a, w :: rest => Ram.load mem a = w ∧ Words mem (a + 4) rest

theorem store_of_far {mem : Ram} {a v x : UInt32} (h : 4 ≤ (x - a).toNat) :
    Ram.store mem a v x = mem x := if_neg (Nat.not_lt.mpr h)

theorem store_add (mem : Ram) (a v : UInt32) {j : UInt32} (hj : j.toNat < 4) :
    Ram.store mem a v (a + j) = .ofNat (v.toNat / 256 ^ j.toNat) := by
  have hback : a + j - a = j := by grind
  rw [Ram.store, hback, if_pos hj]

theorem load_store (mem : Ram) (a v : UInt32) : Ram.load (Ram.store mem a v) a = v := by
  have hfirst : Ram.store mem a v a = .ofNat (v.toNat / 256 ^ 0) := by
    have h := store_add mem a v (j := 0) (by decide)
    rwa [UInt32.add_zero] at h
  rw [Ram.load, hfirst, store_add mem a v (j := 1) (by decide),
    store_add mem a v (j := 2) (by decide), store_add mem a v (j := 3) (by decide)]
  apply UInt32.toNat.inj
  have hv : v.toNat < 2 ^ 32 := v.toNat_lt
  rw [UInt32.toNat_ofNat']
  simp only [UInt8.toNat_ofNat', show (1 : UInt32).toNat = 1 from rfl,
    show (2 : UInt32).toNat = 2 from rfl, show (3 : UInt32).toNat = 3 from rfl]
  omega

theorem toNat_add_sub {a b j : UInt32} (h : (b - a).toNat + j.toNat < 2 ^ 32) :
    (b + j - a).toNat = (b - a).toNat + j.toNat := by
  have hshift : b + j - a = (b - a) + j := by grind
  rw [hshift, UInt32.toNat_add, Nat.mod_eq_of_lt h]

theorem load_congr {mem mem' : Ram} {a : UInt32}
    (h : ∀ j : UInt32, j.toNat < 4 → mem' (a + j) = mem (a + j)) :
    Ram.load mem' a = Ram.load mem a := by
  have hzero := h 0 (by decide)
  rw [UInt32.add_zero] at hzero
  rw [Ram.load, Ram.load, hzero, h 1 (by decide), h 2 (by decide), h 3 (by decide)]

namespace Words

variable {mem mem' : Ram} {a b v : UInt32} {ws rest : List UInt32}

/-- Words stay where their bytes stay. -/
theorem congr (h : Words mem a ws) (hlow : (a - b).toNat + 4 * ws.length < 2 ^ 32)
    (hsame : ∀ x, (a - b).toNat ≤ (x - b).toNat →
      (x - b).toNat < (a - b).toNat + 4 * ws.length → mem' x = mem x) : Words mem' a ws := by
  induction ws generalizing a with
  | nil => exact True.intro
  | cons w ws ih =>
      rw [List.length_cons] at hlow hsame
      have hnext : (a + 4 - b).toNat = (a - b).toNat + 4 :=
        toNat_add_sub (j := 4) (show (a - b).toNat + 4 < 2 ^ 32 by omega)
      refine ⟨(load_congr fun j hj => hsame (a + j) ?_ ?_).trans h.1,
        ih h.2 (by omega) fun x hx hx' => hsame x (by omega) (by omega)⟩
      all_goals
        rw [toNat_add_sub (show (a - b).toNat + j.toNat < 2 ^ 32 by omega)]
        omega

theorem of_append (h : Words mem a (ws ++ rest)) : Words mem a ws := by
  induction ws generalizing a with
  | nil => exact True.intro
  | cons w ws ih => exact ⟨h.1, ih h.2⟩

/-- A word in front of others does not touch them, unless they are a great many. -/
theorem cons_store (h : Words mem (a + 4) ws) (hlength : 4 * ws.length + 4 < 2 ^ 32) (v : UInt32) :
    Words (Ram.store mem a v) a (v :: ws) := by
  have hfour : (a + 4 - a).toNat = 4 := by
    have hback : a + 4 - a = 4 := by grind
    rw [hback]
    rfl
  refine ⟨load_store mem a v, h.congr (b := a) (by omega) fun x hx _ => store_of_far (by omega)⟩

end Words

/-! ## The processor -/

/-- The general registers beside the stack pointer, in the order of `pusha`. -/
inductive Reg
  | eax | ecx | edx | ebx | ebp | esi | edi
  deriving DecidableEq

/-- The segment registers that an interrupt has to do with. -/
inductive Seg
  | cs | ds | es | fs | gs
  deriving DecidableEq

/-- The state of the processor and its memory. -/
@[ext]
structure Cpu where
  reg : Reg → UInt32
  esp : UInt32
  seg : Seg → UInt16
  eip : UInt32
  eflags : UInt32
  cr2 : UInt32
  mem : Ram

/-- An instruction. -/
inductive Instr
  | cli
  | sti
  | pushImm (value : UInt32)
  | push (r : Reg)
  | pushEsp
  | pop (r : Reg)
  | pusha
  | popa
  | movSeg (r : Reg) (sg : Seg)
  | movCr2 (r : Reg)
  | movLow (r : Reg) (value : UInt16)
  | movLowReg (r src : Reg)
  | loadSeg (sg : Seg) (r : Reg)
  | addEsp (value : UInt32)
  | call
  | iret

namespace Cpu

variable (s : Cpu)

def setReg (r : Reg) (value : UInt32) : Cpu :=
  { s with reg := Function.update s.reg r value }

def setSeg (sg : Seg) (value : UInt16) : Cpu :=
  { s with seg := Function.update s.seg sg value }

/-- The same selector in all segments for data. -/
def setData (value : UInt16) : Cpu :=
  { s with seg := fun
      | .cs => s.seg .cs
      | _ => value }

/-- Go on elsewhere, with other flags. -/
def jump (eip eflags : UInt32) : Cpu := { s with eip := eip, eflags := eflags }

/-- A word is put on the stack. -/
def push (value : UInt32) : Cpu :=
  { s with esp := s.esp - 4, mem := Ram.store s.mem (s.esp - 4) value }

/-- The words of a list are put on the stack, one after the other. -/
def pushAll (values : List UInt32) : Cpu := values.foldl push s

/-- `pusha` puts down all registers, the stack pointer as it was. -/
def pusha : Cpu :=
  s.pushAll [s.reg .eax, s.reg .ecx, s.reg .edx, s.reg .ebx, s.esp, s.reg .ebp, s.reg .esi,
    s.reg .edi]

/-- The word on the stack is taken off. -/
def drop : Cpu := { s with esp := s.esp + 4 }

/-- The word on the stack goes into a register. -/
def popReg (r : Reg) : Cpu := s.drop.setReg r (Ram.load s.mem s.esp)

/-- `popa` takes them back, all but the stack pointer. -/
def popa : Cpu :=
  ((((((s.popReg .edi).popReg .esi).popReg .ebp).drop.popReg .ebx).popReg .edx).popReg
    .ecx).popReg .eax

/-- `iret` to the same privilege level. -/
def iret : Cpu :=
  { s.setSeg .cs (Ram.load s.mem (s.esp + 4)).toUInt16 with
    esp := s.esp + 12
    eip := Ram.load s.mem s.esp
    eflags := Ram.load s.mem (s.esp + 8) }

/-- The flags behind an interrupt gate: interrupts are disabled, and so are single steps. -/
def gateFlags (eflags : UInt32) : UInt32 := eflags &&& 0xFFFCBCFF

/-- What the processor does itself at an interrupt of the kernel: it puts down where it was, goes
on at the code of the gate, and puts down an error code if the exception has one. -/
def interrupt (sel : UInt16) (base : UInt32) (err : Option UInt32) : Cpu :=
  ((s.pushAll ([s.eflags, (s.seg .cs).toUInt32, s.eip] ++ err.toList)).setSeg .cs sel).jump base
    (gateFlags s.eflags)

/-- The low half of a register is replaced. -/
def lowHalf (old : UInt32) (value : UInt16) : UInt32 := (old &&& 0xFFFF0000) ||| value.toUInt32

/-- One instruction. A call is of the function that is given, which returns. -/
def exec (callee : Cpu → Cpu) : Instr → Cpu
  | .cli => { s with eflags := s.eflags &&& 0xFFFFFDFF }
  | .sti => { s with eflags := s.eflags ||| 0x200 }
  | .pushImm value => s.push value
  | .push r => s.push (s.reg r)
  | .pushEsp => s.push s.esp
  | .pop r => s.popReg r
  | .pusha => s.pusha
  | .popa => s.popa
  | .movSeg r sg => s.setReg r (s.seg sg).toUInt32
  | .movCr2 r => s.setReg r s.cr2
  | .movLow r value => s.setReg r (lowHalf (s.reg r) value)
  | .movLowReg r src => s.setReg r (lowHalf (s.reg r) (s.reg src).toUInt16)
  | .loadSeg sg r => s.setSeg sg (s.reg r).toUInt16
  | .addEsp value => { s with esp := s.esp + value }
  | .call => callee s
  | .iret => s.iret

/-- A list of instructions. -/
def run (callee : Cpu → Cpu) (code : List Instr) : Cpu :=
  code.foldl (fun s i => s.exec callee i) s

@[simp] theorem run_nil (callee : Cpu → Cpu) : s.run callee [] = s := rfl

theorem run_append (callee : Cpu → Cpu) (code rest : List Instr) :
    s.run callee (code ++ rest) = (s.run callee code).run callee rest := List.foldl_append ..

theorem run_cons (callee : Cpu → Cpu) (i : Instr) (rest : List Instr) :
    s.run callee (i :: rest) = (s.exec callee i).run callee rest := rfl

theorem pushAll_append (values rest : List UInt32) :
    s.pushAll (values ++ rest) = (s.pushAll values).pushAll rest := List.foldl_append ..

section Commute

variable (r : Reg) (sg : Seg) (v w : UInt32) (x : UInt16)

@[simp] theorem push_setReg : (s.setReg r v).push w = (s.push w).setReg r v := rfl

@[simp] theorem push_setSeg : (s.setSeg sg x).push w = (s.push w).setSeg sg x := rfl

@[simp] theorem push_jump (eip eflags : UInt32) :
    (s.jump eip eflags).push v = (s.push v).jump eip eflags := rfl

@[simp] theorem setReg_setReg : (s.setReg r v).setReg r w = s.setReg r w := by
  rw [setReg, setReg, setReg]
  dsimp only
  rw [Function.update_idem]

@[simp] theorem setReg_reg_self : (s.setReg r v).reg r = v := Function.update_self ..

@[simp] theorem setSeg_reg : (s.setSeg sg x).reg = s.reg := rfl

@[simp] theorem setReg_esp : (s.setReg r v).esp = s.esp := rfl

@[simp] theorem setReg_cr2 : (s.setReg r v).cr2 = s.cr2 := rfl

@[simp] theorem setSeg_esp : (s.setSeg sg x).esp = s.esp := rfl

theorem setSeg_data :
    (((s.setSeg .ds x).setSeg .es x).setSeg .fs x).setSeg .gs x = s.setData x := by
  have hseg : ((((s.setSeg .ds x).setSeg .es x).setSeg .fs x).setSeg .gs x).seg =
      (s.setData x).seg := by
    funext sg
    cases sg <;> rfl
  exact Cpu.ext rfl rfl hseg rfl rfl rfl rfl

theorem pushAll_snoc (values : List UInt32) :
    (s.pushAll values).push v = s.pushAll (values ++ [v]) := (s.pushAll_append values [v]).symm

end Commute

/-! ## The stack as a list -/

/-- The stack begins with these words. -/
def Stacked (l : List UInt32) : Prop := Words s.mem s.esp l

section Stack

variable {s} {l values : List UInt32} {v : UInt32}

theorem Stacked.push (h : s.Stacked l) (hlength : 4 * l.length + 4 < 2 ^ 32) (v : UInt32) :
    (s.push v).Stacked (v :: l) := by
  have hback : s.esp - 4 + 4 = s.esp := UInt32.sub_add_cancel ..
  exact Words.cons_store (hback.symm ▸ h) hlength v

theorem Stacked.pushAll (h : s.Stacked l)
    (hlength : 4 * (values.length + l.length) < 2 ^ 32) :
    (s.pushAll values).Stacked (values.reverse ++ l) := by
  induction values generalizing s l with
  | nil => exact h
  | cons v values ih =>
      rw [List.length_cons] at hlength
      rw [List.reverse_cons, List.append_assoc]
      exact ih (h.push (by omega) v) (by rw [List.length_append, List.length_singleton]; omega)

theorem pushAll_esp (values : List UInt32) :
    (s.pushAll values).esp = s.esp - 4 * .ofNat values.length := by
  induction values generalizing s with
  | nil =>
      have hzero : s.esp - 4 * 0 = s.esp := by grind
      exact hzero.symm
  | cons v values ih =>
      have hrest : (s.push v).esp = s.esp - 4 := rfl
      show ((s.push v).pushAll values).esp = _
      rw [ih, hrest, List.length_cons, UInt32.ofNat_add]
      show _ = s.esp - 4 * (_ + 1)
      grind

/-- Words on the stack change the bytes below it alone. -/
theorem pushAll_mem (values : List UInt32) {x : UInt32}
    (h : 4 * values.length ≤ (s.esp - 1 - x).toNat) : (s.pushAll values).mem x = s.mem x := by
  induction values generalizing s with
  | nil => rfl
  | cons v values ih =>
      rw [List.length_cons] at h
      have hfour : (s.esp - 4 - 1 - x).toNat = (s.esp - 1 - x).toNat - 4 := by
        have hshift : s.esp - 4 - 1 - x = (s.esp - 1 - x) - 4 := by grind
        rw [hshift, UInt32.toNat_sub_of_le]
        · rfl
        · rw [UInt32.le_iff_toNat_le, show (4 : UInt32).toNat = 4 from rfl]
          omega
      have hfar : 4 ≤ (x - (s.esp - 4)).toNat := by
        have hmirror : x - (s.esp - 4) = 3 - (s.esp - 1 - x) := by grind
        have hlt : (s.esp - 1 - x).toNat < 2 ^ 32 := UInt32.toNat_lt _
        rw [hmirror, UInt32.toNat_sub, show (3 : UInt32).toNat = 3 from rfl]
        omega
      exact (ih (s := s.push v) (by
        show _ ≤ (s.esp - 4 - 1 - x).toNat
        omega)).trans (store_of_far hfar)

@[simp] theorem pushAll_reg (values : List UInt32) : (s.pushAll values).reg = s.reg := by
  induction values generalizing s with
  | nil => rfl
  | cons v values ih => exact ih (s := s.push v)

@[simp] theorem pushAll_seg (values : List UInt32) : (s.pushAll values).seg = s.seg := by
  induction values generalizing s with
  | nil => rfl
  | cons v values ih => exact ih (s := s.push v)

@[simp] theorem pushAll_cr2 (values : List UInt32) : (s.pushAll values).cr2 = s.cr2 := by
  induction values generalizing s with
  | nil => rfl
  | cons v values ih => exact ih (s := s.push v)

@[simp] theorem pushAll_eip (values : List UInt32) : (s.pushAll values).eip = s.eip := by
  induction values generalizing s with
  | nil => rfl
  | cons v values ih => exact ih (s := s.push v)

@[simp] theorem pushAll_eflags (values : List UInt32) :
    (s.pushAll values).eflags = s.eflags := by
  induction values generalizing s with
  | nil => rfl
  | cons v values ih => exact ih (s := s.push v)

/-- What lies on the stack depends on the pointer and the memory alone. -/
theorem pushAll_congr {t : Cpu} (hesp : s.esp = t.esp) (hmem : s.mem = t.mem)
    (values : List UInt32) : (s.pushAll values).mem = (t.pushAll values).mem := by
  induction values generalizing s t with
  | nil => exact hmem
  | cons v values ih =>
      refine ih (s := s.push v) (t := t.push v) ?_ ?_
      · rw [push, push, hesp]
      · rw [push, push, hesp, hmem]

end Stack

end Cpu

end MasterOS.Device
