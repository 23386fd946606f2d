/-
# Every key arrives once

The keyboard has a byte at its port until that is read, and asks with its line. The handler reads
the port and hands the character to a receiver, which may be the login or the shell. So the
receiver is given the characters of the keys in the order in which they were pressed, each once,
whatever other interrupts come between them.
-/

import MasterOS.Console.Keyboard
import MasterOS.Interrupt.Timer

namespace MasterOS.Interrupt

open MasterOS.Console MasterOS.Device MasterOS.Math

variable {R : Type}

/-! ## The keyboard and its handler -/

/-- The byte at port 0x60 and whether it waits to be read, the modifiers, and the receiver of the
characters. -/
structure Keyboard (R : Type) where
  port : UInt8
  full : Bool
  mods : Modifiers
  receiver : R

section Deliver

variable (deliver : UInt8 → R → R)

/-- What becomes of the modifiers and of the receiver by a scan code that both reads of
`keybHandler` find. -/
def press (m : Modifiers × R) (code : UInt8) : Modifiers × R :=
  let result := keybHandler m.1 code code
  (result.1, match result.2 with
    | some c => deliver c m.2
    | none => m.2)

/-- `keybHandler` behind its line. -/
def keybRoutine (k : Timer (Keyboard R)) : Keyboard R :=
  let result := press deliver (k.rest.mods, k.rest.receiver) k.rest.port
  { k.rest with full := false, mods := result.1, receiver := result.2 }

/-- An event of the controllers, or a key. -/
inductive Input
  | event (e : Event)
  | typed (code : UInt8)

/-- The scan code of a key. -/
def Input.code : Input → Option UInt8
  | .event _ => none
  | .typed code => some code

/-- One step. The keyboard alone raises its line, and does so with a byte at its port; it does not
have the next one there before this one has been read. -/
inductive KeyStep : System (Timer (Keyboard R)) → Input → System (Timer (Keyboard R)) → Prop
  | event {s s' : System (Timer (Keyboard R))} {e : Event} : e ≠ .raised (.master 1) →
      e ≠ .merged (.master 1) → Step (kernelRoutines (keybRoutine deliver)) s e s' →
      KeyStep s (.event e) s'
  | typed {s : System (Timer (Keyboard R))} (code : UInt8) : s.k.rest.full = false →
      KeyStep s (.typed code) ⟨s.pics.raise (.master 1), s.running,
        { s.k with rest := { s.k.rest with port := code, full := true } }⟩

/-! ## One step -/

theorem callRoutine_rest (keyb : Timer R → R) (vector : UInt8) (k : Timer R) :
    (callRoutine (kernelRoutines keyb) vector.toNat k).rest =
      if vector = 0x21 then keyb k else k.rest := by
  unfold callRoutine
  by_cases hkeyb : vector = 0x21
  · subst hkeyb
    rfl
  · rw [if_neg hkeyb]
    have hne : vector.toNat ≠ 33 := fun heq => hkeyb (UInt8.toNat.inj heq)
    split_ifs with hline
    · rw [kernelRoutines, irqInstallHandler, irqInstallHandler, Function.update_of_ne]
      · rw [Function.update_apply]
        split_ifs <;> rfl
      · intro heq
        have hval := congrArg Fin.val heq
        simp only [Fin.val_one] at hval
        omega
    · rfl

/-- The keys so far, of which one may wait: it does as long as its line asks or its handler runs. -/
structure Keyed (start : Modifiers × R) (codes : List UInt8) (s : System (Timer (Keyboard R))) :
    Prop where
  orderly : Orderly s
  full : (s.pics.asks (.master 1)).toNat + (if s.running = some 0x21 then 1 else 0) =
    s.k.rest.full.toNat
  done : ∃ done, codes = done ++ (if s.k.rest.full then [s.k.rest.port] else []) ∧
    (s.k.rest.mods, s.k.rest.receiver) = done.foldl (press deliver) start

variable {deliver} {start : Modifiers × R} {codes : List UInt8} {s s' : System (Timer (Keyboard R))}

theorem Keyed.typed (h : Keyed deliver start codes s) {code : UInt8}
    (hstep : KeyStep deliver s (.typed code) s') : Keyed deliver start (codes ++ [code]) s' := by
  cases hstep with
  | typed _ hempty =>
      have hraised := h.orderly.raise (l := .master 1) (by decide)
      have hfull := h.full
      obtain ⟨done, hcodes, hdone⟩ := h.done
      rw [hempty, Bool.toNat_false] at hfull
      rw [hempty, if_neg (by decide), List.append_nil] at hcodes
      refine ⟨hraised.withData _, ?_, done, by rw [hcodes]; rfl, hdone⟩
      have hnot : (if s.running = some 0x21 then 1 else 0) = 0 := by omega
      rw [asks_raise, Function.update_self, hnot]
      rfl

/-- An event that changes neither the requests of the keyboard nor its data. -/
theorem Keyed.of_same (h : Keyed deliver start codes s) (horderly : Orderly s')
    (hasks : s'.pics.asks (.master 1) = s.pics.asks (.master 1))
    (hrunning : s'.running = some 0x21 ↔ s.running = some 0x21) (hrest : s'.k.rest = s.k.rest) :
    Keyed deliver start codes s' := by
  refine ⟨horderly, ?_, ?_⟩
  · rw [hasks, hrest, ← h.full]
    simp only [hrunning]
  · rw [hrest]
    exact h.done

theorem served_calls {l : Line} : (Event.served l).calls = some 0x21 ↔ l = .master 1 := by
  have hmaster : ∀ i : Fin 8, (0x20 : UInt8) + .ofNat i = 0x21 ↔ i = 1 := by decide
  have hslave : ∀ i : Fin 8, (0x28 : UInt8) + .ofNat i ≠ 0x21 := by decide
  cases l with
  | master i => simp [Event.calls, hmaster]
  | slave i => simp [Event.calls, hslave]

theorem not_handled (hrest : s.running = none) : s.running ≠ some 0x21 := fun heq => by
  rw [hrest] at heq
  cases heq

/-- What runs behind an event at rest is what the event calls. -/
theorem calls_of_rest {e : Event} (hrest : s.running = none)
    (hrunning : s.running.toList ++ e.calls.toList = e.returns.toList ++ s'.running.toList)
    (hreturns : e.returns = none := by rfl) : s'.running = e.calls := by
  rw [hrest, hreturns] at hrunning
  have hlist : e.calls.toList = s'.running.toList := hrunning
  rw [← s'.running.head?_toList, ← hlist, Option.head?_toList]

/-- The key that is being handled is the one that waits, and no other one asks. -/
theorem asked_of_handled : ∀ {asks full : Bool}, asks.toNat + 1 = full.toNat →
    asks = false ∧ full = true := by
  decide

theorem Keyed.event (h : Keyed deliver start codes s) {e : Event}
    (hstep : KeyStep deliver s (.event e) s') : Keyed deliver start codes s' := by
  obtain ⟨hraised, -, hstep⟩ := hstep
  have horderly := h.orderly.step hstep
  have hasks := congrFun (hstep.asks h.orderly) (.master 1)
  have hrunning := hstep.running h.orderly
  have hdata := congrArg Timer.rest hstep.data
  cases e with
  | raised l =>
      have hne : Line.master 1 ≠ l := fun heq => hraised (heq ▸ rfl)
      obtain ⟨-, -, rfl⟩ := hstep
      exact h.of_same horderly (hasks.trans (Function.update_of_ne hne ..)) Iff.rfl rfl
  | merged l =>
      obtain ⟨-, -, rfl⟩ := hstep
      exact h.of_same horderly hasks Iff.rfl rfl
  | served l =>
      have hcall := calls_of_rest hstep.1 hrunning
      have hbefore := not_handled hstep.1
      have hsame : s'.k = s.k := by
        obtain ⟨-, -, rfl⟩ := hstep
        rfl
      by_cases hl : l = .master 1
      · subst hl
        have hask := (requested_asks hstep.2.1).1
        have hself : Function.update s.pics.asks (.master 1) false (.master 1) = false :=
          Function.update_self ..
        have hafter : s'.pics.asks (.master 1) = false := hasks.trans hself
        have hfull := h.full
        rw [hask, if_neg hbefore] at hfull
        refine ⟨horderly, ?_, hsame ▸ h.done⟩
        rw [hafter, hcall, hsame, ← hfull]
        rfl
      · refine h.of_same horderly (hasks.trans (Function.update_of_ne (Ne.symm hl) ..)) ?_
          (congrArg Timer.rest hsame)
        rw [hcall]
        exact iff_of_false (fun heq => hl (served_calls.mp heq)) hbefore
  | spurious slave =>
      have hcall := calls_of_rest hstep.1 hrunning
      have hbefore := not_handled hstep.1
      have hsame : s'.k = s.k := by
        obtain ⟨-, rfl⟩ := hstep
        rfl
      refine h.of_same horderly hasks ?_ (congrArg Timer.rest hsame)
      rw [hcall]
      refine iff_of_false (fun heq => ?_) hbefore
      cases slave <;> cases heq
  | returned vector =>
      have hrest : s'.running = none := by
        obtain ⟨-, rfl⟩ := hstep
        rfl
      have hdata : s'.k.rest = if vector = 0x21 then keybRoutine deliver s.k else s.k.rest :=
        hdata.trans (callRoutine_rest ..)
      have hasks : s'.pics.asks (.master 1) = s.pics.asks (.master 1) := hasks
      by_cases hkeyb : vector = 0x21
      · -- the byte at the port is that of the key that waits
        rw [if_pos hkeyb] at hdata
        have hfull := h.full
        rw [hstep.1, hkeyb, if_pos rfl] at hfull
        obtain ⟨hnone, hport⟩ := asked_of_handled hfull
        obtain ⟨done, hcodes, hdone⟩ := h.done
        rw [hport, if_pos rfl] at hcodes
        refine ⟨horderly, ?_, done ++ [s.k.rest.port], ?_, ?_⟩
        · rw [hasks, hnone, hrest, hdata]
          rfl
        · rw [hcodes, hdata]
          exact (List.append_nil _).symm
        · rw [hdata, List.foldl_append, ← hdone]
          rfl
      · rw [if_neg hkeyb] at hdata
        refine h.of_same horderly hasks ?_ hdata
        rw [hrest, hstep.1]
        exact iff_of_false (fun heq => by cases heq) fun heq => hkeyb (Option.some.inj heq)

theorem Keyed.run (h : Keyed deliver start codes s) {inputs : List Input}
    (hrun : Trace (KeyStep deliver) s inputs s') :
    Keyed deliver start (codes ++ inputs.filterMap Input.code) s' := by
  induction hrun generalizing codes with
  | nil => rwa [List.filterMap_nil, List.append_nil]
  | @cons _ _ _ input _ hstep _ ih =>
      rw [filterMap_cons_toList, ← List.append_assoc]
      refine ih ?_
      cases input with
      | event e =>
          rw [Input.code, Option.toList_none, List.append_nil]
          exact h.event hstep
      | typed code => exact h.typed hstep

end Deliver

end MasterOS.Interrupt
