/-
# The uptime

The timer is on the first line of the controllers. Its handler counts, and nothing else touches the
count, so that the uptime is the number of interrupts of the timer that have been served.
-/

import MasterOS.Interrupt.Dispatch

namespace MasterOS.Interrupt

open MasterOS.Device MasterOS.Math

/-- `ticks`, beside the other data of the kernel. -/
structure Timer (α : Type) where
  ticks : UInt64
  rest : α

variable {α : Type}

/-- `onIrq0`. -/
def onIrq0 (k : Timer α) : Timer α := { k with ticks := k.ticks + 1 }

/-- `GUS`. -/
def gus (k : Timer α) : UInt32 := (k.ticks / 100).toUInt32

/-- The handlers that `initTimer` and `initKeyb` install. -/
def kernelRoutines (keyb : Timer α → α) : Routines (Timer α) :=
  irqInstallHandler 1 (fun k => { k with rest := keyb k })
    (irqInstallHandler 0 onIrq0 fun _ => none)

theorem callRoutine_ticks (keyb : Timer α → α) (vector : UInt8) (k : Timer α) :
    (callRoutine (kernelRoutines keyb) vector.toNat k).ticks =
      if vector = 0x20 then k.ticks + 1 else k.ticks := by
  unfold callRoutine
  by_cases hclock : vector = 0x20
  · subst hclock
    rfl
  · rw [if_neg hclock]
    have hne : vector.toNat ≠ 32 := fun heq => hclock (UInt8.toNat.inj heq)
    split_ifs with hline
    · by_cases hkeyb : vector.toNat = 33
      · simp only [kernelRoutines, irqInstallHandler, Function.update_apply, hkeyb]
        rfl
      · have hother : kernelRoutines keyb ⟨vector.toNat - 32, by omega⟩ = none := by
          rw [kernelRoutines, irqInstallHandler, irqInstallHandler, Function.update_of_ne,
            Function.update_of_ne]
          · exact fun heq => by
              have hval := congrArg Fin.val heq
              simp only [Fin.val_zero] at hval
              omega
          · exact fun heq => by
              have hval := congrArg Fin.val heq
              simp only [Fin.val_one] at hval
              omega
        rw [hother]
        rfl
    · rfl

theorem foldl_ticks (keyb : Timer α → α) (vectors : List UInt8) (k : Timer α) :
    (vectors.foldl (fun k vector => callRoutine (kernelRoutines keyb) vector.toNat k) k).ticks =
      k.ticks + .ofNat (vectors.count 0x20) := by
  induction vectors generalizing k with
  | nil => exact (UInt64.add_zero _).symm
  | cons vector vectors ih =>
      rw [List.foldl_cons, ih, callRoutine_ticks, List.count_cons]
      by_cases hclock : vector = 0x20
      · subst hclock
        simp only [if_true, beq_self_eq_true, UInt64.ofNat_add]
        grind
      · have hne : (vector == 0x20) = false := beq_false_of_ne hclock
        rw [if_neg hclock, hne]
        simp

theorem count_calls (events : List Event) :
    (events.filterMap Event.calls).count 0x20 = events.count (.served (.master 0)) := by
  have hmaster : ∀ i : Fin 8, (0x20 : UInt8) + .ofNat i = 0x20 ↔ i = 0 := by decide
  have hslave : ∀ i : Fin 8, (0x28 : UInt8) + .ofNat i ≠ 0x20 := by decide
  rw [List.count_filterMap, List.count]
  refine List.countP_congr fun e _ => ?_
  rw [beq_iff_eq, beq_iff_eq]
  cases e with
  | served l =>
      cases l with
      | master i => simp [Event.calls, hmaster]
      | slave i => simp [Event.calls, hslave]
  | spurious slave => cases slave <;> simp [Event.calls]
  | _ => simp [Event.calls]

theorem count_returns (events : List Event) (vector : UInt8) :
    (events.filterMap Event.returns).count vector = events.count (.returned vector) := by
  rw [List.count_filterMap, List.count]
  refine List.countP_congr fun e _ => ?_
  rw [beq_iff_eq, beq_iff_eq]
  cases e <;> simp [Event.returns]

/-- `initTimer`: the count begins, whatever the data of the kernel are and whichever lines ask. -/
def initTimer (s : System α) : System (Timer α) := ⟨s.pics, s.running, ⟨0, s.k⟩⟩

/-- **The uptime is the number of ticks that the kernel has seen.** In every run behind `initTimer`,
`ticks` counts the returns of `onIrq0`, and these are the requests of the timer but for one that
waits and one that is being served. -/
theorem ticks_of_run {routines : Routines α} {keyb : Timer α → α} {ps : Pics} {k : α}
    {before events : List Event} {s₀ : System α} {s : System (Timer α)}
    (hbefore : Trace (Step routines) (booted ps k) before s₀) (hidle : s₀.running = none)
    (hrun : Trace (Step (kernelRoutines keyb)) (initTimer s₀) events s) :
    s.k.ticks = .ofNat (events.count (.returned 0x20)) ∧
      (gus s.k).toNat = events.count (.returned 0x20) % 2 ^ 64 / 100 % 2 ^ 32 ∧
      (s₀.pics.asks (.master 0)).toNat + events.count (.raised (.master 0)) =
        events.count (.returned 0x20) + (if s.running = some 0x20 then 1 else 0) +
          (s.pics.asks (.master 0)).toNat := by
  have hs₀ := ((booted_orderly ps k).run hbefore).1
  have hs : Orderly (initTimer s₀) := hs₀.withData _
  have hticks : s.k.ticks = .ofNat (events.count (.returned 0x20)) := by
    rw [run_data hrun, foldl_ticks, count_returns]
    exact UInt64.zero_add _
  refine ⟨hticks, ?_, ?_⟩
  · rw [gus, UInt64.toNat_toUInt32, UInt64.toNat_div, hticks, UInt64.toNat_ofNat']
    rfl
  · have hline := (hs.run hrun).2 (.master 0)
    have hcalls := congrArg (List.count 0x20) (hs.run_calls hrun)
    rw [List.count_append, List.count_append, count_calls, count_returns] at hcalls
    have hnone : List.count 0x20 (initTimer s₀).running.toList = 0 := by
      show List.count 0x20 s₀.running.toList = 0
      rw [hidle]
      rfl
    have hrunning : List.count 0x20 s.running.toList =
        if s.running = some 0x20 then 1 else 0 := by
      cases s.running with
      | none => rfl
      | some vector => simp [List.count_singleton]
    have hsame : (initTimer s₀).pics.asks (.master 0) = s₀.pics.asks (.master 0) := rfl
    rw [hsame] at hline
    omega

/-- One tick of the timer, with a key that is pressed meanwhile. -/
theorem ticks_of_run_once : ∃ s : System (Timer ℕ), s.k.ticks = 1 ∧
    s.pics.asks (.master 0) = false := by
  obtain ⟨s, hrun⟩ : ∃ s, Trace (Step (kernelRoutines fun k : Timer ℕ => k.rest + 1))
      (initTimer (booted unset 0)) [.raised (.master 0), .served (.master 0),
        .raised (.master 1), .returned 0x20] s :=
    ⟨_, .cons ⟨by decide, by decide +kernel, rfl⟩ (.cons ⟨rfl, by decide +kernel, rfl⟩
      (.cons ⟨by decide, by decide +kernel, rfl⟩ (.cons ⟨by decide +kernel, rfl⟩ (.nil _))))⟩
  have hstart : Trace (Step fun _ => some Nat.succ) (booted unset 0) [] (booted unset 0) := .nil _
  obtain ⟨hticks, -, hcount⟩ := ticks_of_run hstart rfl hrun
  have hone : [Event.raised (.master 0), .served (.master 0), .raised (.master 1),
      .returned 0x20].count (.returned 0x20) = 1 := by decide
  have hraised : [Event.raised (.master 0), .served (.master 0), .raised (.master 1),
      .returned 0x20].count (.raised (.master 0)) = 1 := by decide
  rw [hone] at hticks hcount
  rw [hraised, booted_asks, Bool.toNat_false, Nat.zero_add] at hcount
  refine ⟨s, hticks, ?_⟩
  cases hask : s.pics.asks (.master 0) with
  | false => rfl
  | true =>
      rw [hask, Bool.toNat_true] at hcount
      omega

end MasterOS.Interrupt
