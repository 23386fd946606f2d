/-
# The gates of the interrupts

`initIDT` gives a gate to the exceptions, to the sixteen lines of the interrupt controllers, and
to two vectors besides. The address of a stub is spread over two fields of its gate, and every
gate is reached from every privilege level. The other vectors have none.
-/

import MasterOS.Device.Gdt

namespace MasterOS.Interrupt

open MasterOS.Device

/-- `struct idt_entry_struct`. -/
structure IdtEntry where
  baseLow : UInt16
  sel : UInt16
  always0 : UInt8
  flags : UInt8
  baseHigh : UInt16
  deriving DecidableEq

/-- The entries behind `memSet`. -/
def IdtEntry.zero : IdtEntry := ⟨0, 0, 0, 0, 0⟩

/-- `idt_entries`. -/
abbrev Idt := Fin 256 → IdtEntry

/-- The fields that `setIDTGate` stores. -/
def idtGate (base : UInt32) (sel : UInt16) (flags : UInt8) : IdtEntry where
  baseLow := (base &&& 0xFFFF).toUInt16
  baseHigh := ((base >>> 16) &&& 0xFFFF).toUInt16
  sel := sel
  always0 := 0
  flags := flags ||| 0x60

/-- `setIDTGate`. -/
def setIDTGate (num : Fin 256) (base : UInt32) (sel : UInt16) (flags : UInt8) (idt : Idt) : Idt :=
  Function.update idt num (idtGate base sel flags)

/-- The vectors that `initIDT` sets, in its order. -/
def vectors : List (Fin 256) := (List.finRange 256).filter fun v => v < 48 ∨ v = 128 ∨ v = 177

/-- The table that `initIDT` fills, with the addresses of the stubs. -/
def initIDT (addr : Fin 256 → UInt32) : Idt :=
  vectors.foldl (fun idt v => setIDTGate v (addr v) 0x08 0x8E idt) fun _ => .zero

/-! ## What the processor reads -/

/-- A gate as the processor takes it from its entry. -/
structure Gate where
  offset : UInt32
  selector : UInt16
  present : Bool
  privilege : ℕ
  kind : ℕ
  deriving DecidableEq

/-- The offset from its two halves, and the fields of the flags. -/
def IdtEntry.gate (e : IdtEntry) : Gate where
  offset := .ofNat (e.baseLow.toNat + 2 ^ 16 * e.baseHigh.toNat)
  selector := e.sel
  present := e.flags &&& 0x80 ≠ 0
  privilege := (e.flags >>> 5).toNat % 4
  kind := e.flags.toNat % 32

theorem gate_idtGate (base : UInt32) :
    (idtGate base 0x08 0x8E).gate = ⟨base, 0x08, true, 3, 0xE⟩ := by
  have hlow : (idtGate base 0x08 0x8E).baseLow.toNat = base.toNat % 2 ^ 16 := toNat_lowHalf base
  have hhigh : (idtGate base 0x08 0x8E).baseHigh.toNat = base.toNat / 2 ^ 16 := by
    have hlt := base.toNat_lt
    refine (toNat_lowHalf (base >>> 16)).trans ?_
    rw [UInt32.toNat_shiftRight, show (16 : UInt32).toNat % 32 = 16 from rfl,
      Nat.shiftRight_eq_div_pow]
    omega
  have hoffset : (idtGate base 0x08 0x8E).gate.offset = base := by
    apply UInt32.toNat.inj
    have hlt := base.toNat_lt
    show (UInt32.ofNat (_ + 2 ^ 16 * _)).toNat = _
    rw [hlow, hhigh, UInt32.toNat_ofNat']
    omega
  have hflags : (idtGate base 0x08 0x8E).flags = 0xEE := by
    show (0x8E ||| 0x60 : UInt8) = 0xEE
    decide
  have hrest : ((0xEE : UInt8) &&& 0x80 ≠ 0) ∧ ((0xEE : UInt8) >>> 5).toNat % 4 = 3 ∧
      (0xEE : UInt8).toNat % 32 = 0xE := by decide
  obtain ⟨hpresent, hprivilege, hkind⟩ := hrest
  rw [← hflags] at hpresent hprivilege hkind
  show Gate.mk _ _ _ _ _ = _
  congr 1
  exact decide_eq_true hpresent

theorem initIDT_of_mem (addr : Fin 256 → UInt32) (l : List (Fin 256)) (idt : Idt) (v : Fin 256) :
    l.foldl (fun idt v => setIDTGate v (addr v) 0x08 0x8E idt) idt v =
      if v ∈ l then idtGate (addr v) 0x08 0x8E else idt v := by
  induction l generalizing idt with
  | nil => rfl
  | cons w l ih =>
      rw [List.foldl_cons, ih, setIDTGate]
      by_cases hmem : v ∈ l
      · rw [if_pos hmem, if_pos (List.mem_cons_of_mem _ hmem)]
      · rw [if_neg hmem]
        by_cases heq : v = w
        · subst heq
          rw [if_pos List.mem_cons_self, Function.update_self]
        · rw [Function.update_of_ne heq, if_neg (by simp [heq, hmem])]

/-- **The gates.** A vector of the list goes to its stub in the code segment of the kernel, from
every level and with interrupts disabled; the others go nowhere. -/
theorem initIDT_gate (addr : Fin 256 → UInt32) (v : Fin 256) : (initIDT addr v).gate =
    if v ∈ vectors then ⟨addr v, 0x08, true, 3, 0xE⟩ else ⟨0, 0, false, 0, 0⟩ := by
  rw [initIDT, initIDT_of_mem]
  split_ifs
  · exact gate_idtGate (addr v)
  · rfl

end MasterOS.Interrupt
