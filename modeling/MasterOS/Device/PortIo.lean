/-
# Programs over ports

A driver reaches its device through ports: it reads a byte or a word from one, or writes one,
and goes on with the answer. Such a program is a tree over the accesses it makes. The device
behind the ports is a state with a reaction to every access, and the two run together.
-/

import Mathlib.Data.Nat.Notation
import Mathlib.Data.List.Basic

namespace MasterOS.Device

/-- A program over ports. -/
inductive PortProg (α : Type) : Type
  | ret (value : α)
  | inB (port : ℕ) (next : UInt8 → PortProg α)
  | inW (port : ℕ) (next : UInt16 → PortProg α)
  | outB (port : ℕ) (value : UInt8) (next : PortProg α)
  | outW (port : ℕ) (value : UInt16) (next : PortProg α)

/-- A device behind ports, with states in `σ`. -/
structure PortDevice (σ : Type) where
  inB : σ → ℕ → UInt8 × σ
  inW : σ → ℕ → UInt16 × σ
  outB : σ → ℕ → UInt8 → σ
  outW : σ → ℕ → UInt16 → σ

/-- `inPortB`. -/
def inPortB (port : ℕ) : PortProg UInt8 := .inB port .ret

/-- `inPortW`. -/
def inPortW (port : ℕ) : PortProg UInt16 := .inW port .ret

/-- `outPortB`. -/
def outPortB (port : ℕ) (value : UInt8) : PortProg Unit := .outB port value (.ret ())

/-- `outPortW`. -/
def outPortW (port : ℕ) (value : UInt16) : PortProg Unit := .outW port value (.ret ())

namespace PortProg

variable {α β σ : Type}

/-- Run the second program on the value the first one returns. -/
def bind : PortProg α → (α → PortProg β) → PortProg β
  | .ret value, f => f value
  | .inB port next, f => .inB port fun answer => bind (next answer) f
  | .inW port next, f => .inW port fun answer => bind (next answer) f
  | .outB port value next, f => .outB port value (bind next f)
  | .outW port value next, f => .outW port value (bind next f)

instance : Monad PortProg where
  pure := .ret
  bind := bind

@[simp] theorem ret_bind (value : α) (f : α → PortProg β) : (ret value >>= f) = f value := rfl

/-- Run a program against a device. -/
def run (dev : PortDevice σ) : PortProg α → σ → α × σ
  | .ret value, s => (value, s)
  | .inB port next, s => (next (dev.inB s port).1).run dev (dev.inB s port).2
  | .inW port next, s => (next (dev.inW s port).1).run dev (dev.inW s port).2
  | .outB port value next, s => next.run dev (dev.outB s port value)
  | .outW port value next, s => next.run dev (dev.outW s port value)

variable (dev : PortDevice σ) (s : σ)

@[simp] theorem run_ret (value : α) : (ret value).run dev s = (value, s) := rfl

@[simp] theorem run_pure (value : α) : (pure value : PortProg α).run dev s = (value, s) := rfl

@[simp] theorem run_bind (p : PortProg α) (f : α → PortProg β) :
    (p >>= f).run dev s = (f (p.run dev s).1).run dev (p.run dev s).2 := by
  induction p generalizing s with
  | ret value => rfl
  | inB port next ih => exact ih (dev.inB s port).1 (dev.inB s port).2
  | inW port next ih => exact ih (dev.inW s port).1 (dev.inW s port).2
  | outB port value next ih => exact ih (dev.outB s port value)
  | outW port value next ih => exact ih (dev.outW s port value)

/-- Go on from what the first program is known to do. -/
theorem run_bind_of_run {p : PortProg α} {f : α → PortProg β} {value : α} {s' : σ}
    (h : p.run dev s = (value, s')) : (p >>= f).run dev s = (f value).run dev s' := by
  rw [run_bind, h]

@[simp] theorem run_inPortB (port : ℕ) : (inPortB port).run dev s = dev.inB s port := rfl

@[simp] theorem run_inPortW (port : ℕ) : (inPortW port).run dev s = dev.inW s port := rfl

@[simp] theorem run_outPortB (port : ℕ) (value : UInt8) :
    (outPortB port value).run dev s = ((), dev.outB s port value) := rfl

@[simp] theorem run_outPortW (port : ℕ) (value : UInt16) :
    (outPortW port value).run dev s = ((), dev.outW s port value) := rfl

/-- Write a list of bytes, each to its port. -/
def outAll : List (ℕ × UInt8) → PortProg Unit
  | [] => .ret ()
  | out :: rest => do
      outPortB out.1 out.2
      outAll rest

@[simp] theorem run_outAll (outs : List (ℕ × UInt8)) :
    (outAll outs).run dev s = ((), outs.foldl (fun s out => dev.outB s out.1 out.2) s) := by
  induction outs generalizing s with
  | nil => rfl
  | cons out rest ih => exact ih (dev.outB s out.1 out.2)

end PortProg

end MasterOS.Device
