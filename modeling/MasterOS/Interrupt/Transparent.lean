/-
# Interrupts are invisible

A program that is interrupted goes on as if nothing had been: it finds its registers, its flags,
its stack and its memory as they were, but for what is below its stack pointer and for the data
of the handlers. So a run with interrupts at any of its steps computes what it computes without
one. The exception are the segments, which come back only if they were those of the kernel; the
whole kernel runs with these.
-/

import MasterOS.Interrupt.Stubs

namespace MasterOS.Interrupt

open MasterOS.Device MasterOS.Device.Cpu

/-! ## One interrupt -/

/-- What a handler should see of the interrupted program. Two words of the structure belong to
an interrupt of another level, and here they are those that the program has on its stack. -/
def regsOf (s : Cpu) (num code : UInt32) : InterruptRegisters where
  cr2 := s.cr2
  ds := (s.seg .ds).toUInt32
  edi := s.reg .edi
  esi := s.reg .esi
  ebp := s.reg .ebp
  esp := s.esp - 20
  ebx := s.reg .ebx
  edx := s.reg .edx
  ecx := s.reg .ecx
  eax := s.reg .eax
  intNo := num
  errCode := code
  eip := s.eip
  csm := (s.seg .cs).toUInt32
  eflags := s.eflags
  useResp := s.mem.load s.esp
  ss := s.mem.load (s.esp + 4)

theorem regsAt_atCall (s : Cpu) (num code base : UInt32) :
    regsAt (atCall s num code base).mem
      ((atCall s num code base).mem.load (atCall s num code base).esp) = regsOf s num code := by
  have hwords : Words (atCall s num code base).mem ((atCall s num code base).esp + 4)
      [s.cr2, (s.seg .ds).toUInt32, s.reg .edi, s.reg .esi, s.reg .ebp, s.esp - 20, s.reg .ebx,
        s.reg .edx, s.reg .ecx, s.reg .eax, num, code, s.eip, (s.seg .cs).toUInt32, s.eflags,
        s.mem.load s.esp, s.mem.load (s.esp + 4)] := atCall_words s num code base
  rw [atCall_load]
  generalize (atCall s num code base).mem = mem at hwords ⊢
  generalize (atCall s num code base).esp = esp at hwords ⊢
  simp only [Words, UInt32.add_assoc, UInt32.reduceAdd] at hwords
  obtain ⟨h0, h1, h2, h3, h4, h5, h6, h7, h8, h9, h10, h11, h12, h13, h14, h15, h16, -⟩ := hwords
  simp only [regsAt, regsOf, UInt32.add_assoc, UInt32.reduceAdd, h0, h1, h2, h3, h4, h5, h6, h7,
    h8, h9, h10, h11, h12, h13, h14, h15, h16]

/-- All segments for data hold the selector of the kernel. -/
def Flat (s : Cpu) : Prop := ∀ sg, sg ≠ .cs → s.seg sg = kernelData

theorem resumed_seg_iff (s t : Cpu) : (resumed s t).seg = s.seg ↔ Flat s := by
  constructor
  · intro h sg hsg
    have hds : kernelData = s.seg .ds := congrFun h .ds
    have hrest : (resumed s t).seg sg = s.seg sg := congrFun h sg
    cases sg with
    | cs => exact absurd rfl hsg
    | ds => exact hds.symm
    | es | fs | gs => exact hrest.symm.trans hds.symm
  · intro h
    funext sg
    have hds := h .ds (by decide)
    cases sg with
    | cs => rfl
    | ds => exact hds.symm
    | es => exact hds.trans (h .es (by decide)).symm
    | fs => exact hds.trans (h .fs (by decide)).symm
    | gs => exact hds.trans (h .gs (by decide)).symm

/-- The stub of each vector lies at its address. -/
def Linked (addr : Fin 256 → UInt32) (codeAt : UInt32 → List Instr) : Prop :=
  ∀ v ∈ vectors, codeAt (addr v) = stub v

/-- Addresses of the stubs, and the stubs at them. -/
def plainAddr (v : Fin 256) : UInt32 := .ofNat v

def plainCode (a : UInt32) : List Instr := stub a.toNat

theorem linked_plain : Linked plainAddr plainCode := fun v _ => by
  have hv : (UInt32.ofNat v).toNat = v.val := by
    rw [UInt32.toNat_ofNat']
    exact Nat.mod_eq_of_lt (v.isLt.trans (by decide))
  rw [plainCode, plainAddr, hv]

/-- A kernel that is at rest. -/
def idle : Cpu where
  reg _ := 0
  esp := 0x9000
  seg
    | .cs => 0x08
    | _ => kernelData
  eip := 0x100
  eflags := 0x202
  cr2 := 0
  mem _ := 0

/-- A handler that counts its calls in a word of its own. -/
def counts (t : Cpu) : Cpu := { t with mem := t.mem.store 0x1000 (t.mem.load 0x1000 + 1) }

theorem counts_returned {t : Cpu} (h : 0x2000 ≤ t.esp.toNat) : Returned t (counts t) := by
  refine ⟨rfl, rfl, fun x hx => store_of_far ?_⟩
  rw [UInt32.toNat_sub, UInt32.toNat_add, show (4 : UInt32).toNat = 4 from rfl] at hx
  rw [UInt32.toNat_sub, show (0x1000 : UInt32).toNat = 0x1000 from rfl]
  have hesp : t.esp.toNat < 2 ^ 32 := UInt32.toNat_lt _
  have hlt : x.toNat < 2 ^ 32 := UInt32.toNat_lt _
  omega

section Gates

variable {addr : Fin 256 → UInt32} {codeAt : UInt32 → List Instr}

theorem take_initIDT (hcode : Linked addr codeAt) {v : Fin 256} (hv : v ∈ vectors)
    {err : Option UInt32} (hagree : err.isSome ↔ v.val ∈ errCodeVectors) (callee : Cpu → Cpu)
    (s : Cpu) :
    take (initIDT addr) codeAt callee v err s =
      some ((callee (atCall s (.ofNat v) (err.getD 0) (addr v))).run callee restoreAll) := by
  have hgate : (initIDT addr v).gate = ⟨addr v, 0x08, true, 3, 0xE⟩ := by
    rw [initIDT_gate, if_pos hv]
  rw [take, hgate]
  dsimp only
  rw [if_pos rfl, hcode v hv, run_stub s (addr v) callee hagree]

/-- **An interrupt is a call between two instructions.** Through the table of `initIDT` and the
stub of its vector, every interrupt calls its handler with a pointer to what the processor held,
and has changed no memory but 64 bytes below the stack pointer. If the handler keeps to the
conventions of C, the program goes on with its registers, its stack and its flags, and with the
memory that the handler leaves. -/
theorem interrupt_transparent (hcode : Linked addr codeAt) {v : Fin 256} (hv : v ∈ vectors)
    {err : Option UInt32} (hagree : err.isSome ↔ v.val ∈ errCodeVectors) (s : Cpu) :
    ∃ t : Cpu, t.esp = s.esp - 64 ∧
      regsAt t.mem (t.mem.load t.esp) = regsOf s (.ofNat v) (err.getD 0) ∧
      (∀ x, 64 ≤ (s.esp - 1 - x).toNat → t.mem x = s.mem x) ∧
      ∀ callee, take (initIDT addr) codeAt callee v err s =
          some ((callee t).run callee restoreAll) ∧
        (Returned t (callee t) →
          take (initIDT addr) codeAt callee v err s = some (resumed s (callee t))) := by
  refine ⟨atCall s (.ofNat v) (err.getD 0) (addr v), rfl, regsAt_atCall .., fun x hx => ?_,
    fun callee => ⟨take_initIDT hcode hv hagree callee s, fun hreturned => ?_⟩⟩
  · exact atCall_mem s _ _ _ hx
  · rw [take_initIDT hcode hv hagree callee s, hreturned.run_restoreAll]

/-- A clock that ticks while the kernel is at rest. -/
theorem interrupt_transparent_idle : ∃ t : Cpu,
    regsAt t.mem (t.mem.load t.esp) = regsOf idle 32 0 ∧
      take (initIDT plainAddr) plainCode counts 32 none idle = some (resumed idle (counts t)) := by
  obtain ⟨t, hesp, hregs, -, hcalls⟩ := interrupt_transparent linked_plain (v := 32)
    (by decide +kernel) (show (none : Option UInt32).isSome ↔ 32 ∈ errCodeVectors by decide) idle
  have hroom : 0x2000 ≤ t.esp.toNat := by
    rw [hesp]
    decide
  exact ⟨t, hregs, (hcalls counts).2 (counts_returned hroom)⟩

/-- **The segments come back if and only if they were those of the kernel**, `ds` first of all:
it is the one that is not loaded again. -/
theorem segments_kept_iff (hcode : Linked addr codeAt) {v : Fin 256} (hv : v ∈ vectors)
    {err : Option UInt32} (hagree : err.isSome ↔ v.val ∈ errCodeVectors) {callee : Cpu → Cpu}
    {s : Cpu}
    (hreturned : Returned (atCall s (.ofNat v) (err.getD 0) (addr v))
      (callee (atCall s (.ofNat v) (err.getD 0) (addr v)))) :
    ∃ s', take (initIDT addr) codeAt callee v err s = some s' ∧
      s'.seg .cs = s.seg .cs ∧ s'.seg .ds = kernelData ∧
      (∀ sg ∈ [Seg.es, .fs, .gs], s'.seg sg = s.seg .ds) ∧ (s'.seg = s.seg ↔ Flat s) := by
  refine ⟨_, take_initIDT hcode hv hagree callee s, ?_⟩
  rw [hreturned.run_restoreAll]
  refine ⟨rfl, rfl, fun sg hsg => ?_, resumed_seg_iff s _⟩
  cases sg with
  | cs | ds => exact absurd hsg (by decide)
  | es | fs | gs => rfl

/-- A program with another `ds` goes on with that of the kernel. -/
theorem segments_kept_iff_user : ∃ s', take (initIDT plainAddr) plainCode counts 128 none
    (idle.setSeg .ds 0x23) = some s' ∧ s'.seg .ds = kernelData ∧ s'.seg .es = 0x23 := by
  obtain ⟨s', htake, -, hds, hrest, -⟩ := segments_kept_iff linked_plain (v := 128)
    (by decide +kernel) (show (none : Option UInt32).isSome ↔ 128 ∈ errCodeVectors by decide)
    (counts_returned (t := atCall (idle.setSeg .ds 0x23) _ _ _)
      (show 0x2000 ≤ (0x9000 - 64 : UInt32).toNat by decide))
  exact ⟨s', htake, hds, hrest .es (by decide)⟩

end Gates

/-! ## Any number of interrupts -/

/-- Two states between which a program cannot tell: they differ in the data of the handlers and
in the part of the stack that is not in use, from its bottom up to the stack pointer. -/
structure Alike (data : Set UInt32) (bottom : ℕ) (s t : Cpu) : Prop where
  reg : t.reg = s.reg
  esp : t.esp = s.esp
  seg : t.seg = s.seg
  eip : t.eip = s.eip
  eflags : t.eflags = s.eflags
  mem : ∀ x ∉ data, x.toNat < bottom ∨ s.esp.toNat ≤ x.toNat → t.mem x = s.mem x

/-- A handler that returns as C asks for, and writes to its data and to the stack below its
argument alone, as long as there is so much room on the stack. -/
structure Confined (callee : Cpu → Cpu) (data : Set UInt32) (bottom room : ℕ) : Prop where
  returned : ∀ t, bottom + room ≤ t.esp.toNat → Returned t (callee t)
  kept : ∀ t, bottom + room ≤ t.esp.toNat → ∀ x ∉ data,
    x.toNat < bottom ∨ t.esp.toNat + 4 ≤ x.toNat → (callee t).mem x = t.mem x

section Runs

variable {addr : Fin 256 → UInt32} {codeAt : UInt32 → List Instr} {callee : Cpu → Cpu}
  {data : Set UInt32} {bottom room : ℕ}

/-- A state in which an interrupt may come: the segments of the kernel, and room on the stack. -/
structure Ready (bottom room : ℕ) (s : Cpu) : Prop where
  flat : Flat s
  room : bottom + room + 64 ≤ s.esp.toNat

theorem take_alike (hcode : Linked addr codeAt)
    (hconfined : Confined callee data bottom room) {v : Fin 256} (hv : v ∈ vectors)
    (hnot : v.val ∉ errCodeVectors) {s s' : Cpu} (hready : Ready bottom room s)
    (htake : take (initIDT addr) codeAt callee v none s = some s') : Alike data bottom s s' := by
  have hagree : (none : Option UInt32).isSome ↔ v.val ∈ errCodeVectors :=
    ⟨fun h => absurd h (by decide), fun h => absurd h hnot⟩
  rw [take_initIDT hcode hv hagree] at htake
  generalize hcall : atCall s (.ofNat v) ((none : Option UInt32).getD 0) (addr v) = t at htake
  have hesp : t.esp.toNat = s.esp.toNat - 64 := by
    have hle : 64 ≤ s.esp.toNat := (Nat.le_add_left _ _).trans hready.room
    rw [← hcall]
    show (s.esp - 64).toNat = _
    rw [UInt32.toNat_sub_of_le]
    · rfl
    · rw [UInt32.le_iff_toNat_le]
      exact hle
  have hroom : bottom + room ≤ t.esp.toNat := by
    have hready := hready.room
    omega
  have hreturned := hconfined.returned t hroom
  have hresumed : (callee t).run callee restoreAll = resumed s (callee t) := by
    rw [← hcall] at hreturned ⊢
    exact hreturned.run_restoreAll callee
  obtain rfl : resumed s (callee t) = s' := by
    rw [← hresumed]
    exact Option.some.inj htake
  refine ⟨rfl, rfl, (resumed_seg_iff s _).mpr hready.flat, rfl, rfl, fun x hx hplace => ?_⟩
  have hready := hready.room
  have hlt : s.esp.toNat < 2 ^ 32 := UInt32.toNat_lt _
  have hxlt : x.toNat < 2 ^ 32 := UInt32.toNat_lt _
  have hbefore : t.mem x = s.mem x := by
    rw [← hcall]
    refine atCall_mem s _ _ _ ?_
    rw [UInt32.toNat_sub, UInt32.toNat_sub, show (1 : UInt32).toNat = 1 from rfl]
    omega
  exact (hconfined.kept t hroom x hx (by omega)).trans hbefore

/-- A program that is interrupted any number of times: the states it reaches, with the number of
its own steps. -/
inductive Interleaved (idt : Idt) (codeAt : UInt32 → List Instr) (callee : Cpu → Cpu)
    (step : Cpu → Cpu) (s : Cpu) : ℕ → Cpu → Prop
  | start : Interleaved idt codeAt callee step s 0 s
  | step {n : ℕ} {t : Cpu} : Interleaved idt codeAt callee step s n t →
      Interleaved idt codeAt callee step s (n + 1) (step t)
  | interrupt {n : ℕ} {t t' : Cpu} {v : Fin 256} : v ∈ vectors → v.val ∉ errCodeVectors →
      Interleaved idt codeAt callee step s n t → take idt codeAt callee v none t = some t' →
      Interleaved idt codeAt callee step s n t'

/-- **Interrupts are invisible.** What a program shows does not depend on the data of the handlers
nor on the unused part of the stack, and each of its steps goes by what it shows. Then, however
interrupts fall between its steps, it shows what it shows without them. -/
theorem interrupts_invisible {V : Type} {view : Cpu → V} {step : Cpu → Cpu} {s : Cpu}
    (hcode : Linked addr codeAt)
    (hconfined : Confined callee data bottom room)
    (hview : ∀ t t', Alike data bottom t t' → view t' = view t)
    (hstep : ∀ t t', view t = view t' → view (step t) = view (step t'))
    (hshows : ∀ t t', view t = view t' → t.esp = t'.esp ∧ t.seg = t'.seg)
    (hready : ∀ n, Ready bottom room (step^[n] s)) {n : ℕ} {t : Cpu}
    (hrun : Interleaved (initIDT addr) codeAt callee step s n t) :
    view t = view (step^[n] s) := by
  induction hrun with
  | start => rfl
  | step _ ih =>
      rw [Function.iterate_succ_apply']
      exact hstep _ _ ih
  | interrupt hv hnot _ htake ih =>
      -- it is ready here, since it shows what it shows where it was not interrupted
      obtain ⟨hesp, hseg⟩ := hshows _ _ ih
      have hhere : Ready bottom room _ :=
        ⟨fun sg hsg => (congrFun hseg sg).trans ((hready _).flat sg hsg),
          hesp ▸ (hready _).room⟩
      exact (hview _ _ (take_alike hcode hconfined hv hnot hhere htake)).trans ih

end Runs

/-- A program that counts in a register. -/
def counting (t : Cpu) : Cpu := (t.setReg .eax (t.reg .eax + 1)).jump (t.eip + 1) t.eflags

theorem ready_counting (n : ℕ) : Ready 0x2000 0x100 (counting^[n] idle) := by
  have hkept : (counting^[n] idle).esp = idle.esp ∧ (counting^[n] idle).seg = idle.seg := by
    induction n with
    | zero => exact ⟨rfl, rfl⟩
    | succ n ih =>
        rw [Function.iterate_succ_apply']
        exact ih
  refine ⟨fun sg hsg => (congrFun hkept.2 sg).trans ?_, ?_⟩
  · cases sg with
    | cs => exact absurd rfl hsg
    | _ => rfl
  · rw [hkept.1]
    decide

theorem confined_counts :
    Confined counts {x | 0x1000 ≤ x.toNat ∧ x.toNat < 0x1004} 0x2000 0x100 := by
  refine ⟨fun t ht => counts_returned (by omega), fun t _ x hx _ => store_of_far ?_⟩
  have hlt : x.toNat < 2 ^ 32 := UInt32.toNat_lt _
  have hout : ¬ (0x1000 ≤ x.toNat ∧ x.toNat < 0x1004) := hx
  rw [UInt32.toNat_sub, show (0x1000 : UInt32).toNat = 0x1000 from rfl]
  omega

/-- What that program shows: all but its memory. -/
def visible (t : Cpu) : (Reg → UInt32) × UInt32 × (Seg → UInt16) × UInt32 × UInt32 :=
  (t.reg, t.esp, t.seg, t.eip, t.eflags)

theorem visible_inj {t t' : Cpu} (h : visible t = visible t') : t.reg = t'.reg ∧ t.esp = t'.esp ∧
    t.seg = t'.seg ∧ t.eip = t'.eip ∧ t.eflags = t'.eflags := by
  simpa only [visible, Prod.mk.injEq] using h

/-- Between two ticks of the clock a program counts as it would without them. -/
theorem interrupts_invisible_counting : ∃ t,
    Interleaved (initIDT plainAddr) plainCode counts counting idle 1 t ∧ t.reg .eax = 1 := by
  have hclock : (32 : Fin 256) ∈ vectors := by decide +kernel
  have htick (s : Cpu) := take_initIDT linked_plain hclock
    (show (none : Option UInt32).isSome ↔ 32 ∈ errCodeVectors by decide) counts s
  have hstart : Interleaved (initIDT plainAddr) plainCode counts counting idle 0 idle := .start
  have hrun := Interleaved.interrupt hclock (by decide)
    (.step (.interrupt hclock (by decide) hstart (htick idle))) (htick _)
  have hview (t t' : Cpu) (h : Alike {x | 0x1000 ≤ x.toNat ∧ x.toNat < 0x1004} 0x2000 t t') :
      visible t' = visible t := by
    rw [visible, visible, h.reg, h.esp, h.seg, h.eip, h.eflags]
  have hstep (t t' : Cpu) (h : visible t = visible t') :
      visible (counting t) = visible (counting t') := by
    obtain ⟨hreg, hesp, hseg, heip, heflags⟩ := visible_inj h
    simp only [visible, counting, Cpu.jump, Cpu.setReg, hreg, hesp, hseg, heip, heflags]
  have hshows (t t' : Cpu) (h : visible t = visible t') : t.esp = t'.esp ∧ t.seg = t'.seg :=
    ⟨(visible_inj h).2.1, (visible_inj h).2.2.1⟩
  have hsame := interrupts_invisible linked_plain confined_counts hview hstep hshows ready_counting
    hrun
  exact ⟨_, hrun, congrFun (visible_inj hsame).1 .eax⟩

end MasterOS.Interrupt
