/-
# No line waits forever

If the devices are quiet, the processor serves what waits, the line of the highest priority first,
and is at rest after two steps for each line that asked.
-/

import MasterOS.Interrupt.Dispatch

namespace MasterOS.Interrupt

open MasterOS.Device MasterOS.Math

variable {K : Type}

/-! ## Until nothing waits -/

/-- How many steps the processor has to make for what waits: two for each line that asks, and one
for the handler that runs. -/
def System.workload (s : System K) : ℕ :=
  2 * (Finset.univ.filter fun l => s.pics.asks l = true).card + s.running.toList.length

/-- The processor's own events for lines that ask. -/
def Event.Quiet : Event → Prop
  | .served _ => True
  | .returned _ => True
  | _ => False

section Quiet

variable {routines : Routines K} {s s' : System K} {e : Event}

theorem Step.workload (h : Orderly s) (hstep : Step routines s e s') (hquiet : e.Quiet) :
    s'.workload + 1 = s.workload := by
  have hasks := hstep.asks h
  have hrunning := congrArg List.length (hstep.running h)
  rw [List.length_append, List.length_append] at hrunning
  cases e with
  | served l =>
      have hask := (requested_asks hstep.2.1).1
      have herase : (Finset.univ.filter fun l' => s'.pics.asks l' = true) =
          (Finset.univ.filter fun l' => s.pics.asks l' = true).erase l := by
        ext l'
        rw [hasks]
        simp only [Event.after, Finset.mem_filter, Finset.mem_univ, true_and, Finset.mem_erase,
          Function.update_apply]
        by_cases heq : l' = l <;> simp [heq]
      have hmem : l ∈ Finset.univ.filter fun l' => s.pics.asks l' = true :=
        Finset.mem_filter.mpr ⟨Finset.mem_univ l, hask⟩
      have hcard := Finset.card_erase_add_one hmem
      have hcall : (Event.served l).calls.toList.length = 1 := by cases l <;> rfl
      have hreturn : (Event.served l).returns.toList.length = 0 := rfl
      rw [System.workload, System.workload, herase]
      omega
  | returned vector =>
      have hsame : s'.pics.asks = s.pics.asks := hasks
      have hcall : (Event.returned vector).calls.toList.length = 0 := rfl
      have hreturn : (Event.returned vector).returns.toList.length = 1 := rfl
      rw [System.workload, System.workload, hsame]
      omega
  | _ => exact hquiet.elim

/-- Where there is something to do, the processor can do it. -/
theorem Orderly.progress (h : Orderly s) (routines : Routines K) (hwork : s.workload ≠ 0) :
    ∃ e s', e.Quiet ∧ Step routines s e s' := by
  cases hrun : s.running with
  | some vector => exact ⟨.returned vector, _, True.intro, hrun, rfl⟩
  | none =>
      obtain ⟨hmaster, hslave⟩ := h.at_rest hrun
      obtain ⟨l, hl⟩ : ∃ l, s.pics.asks l = true := by
        by_contra hnone
        apply hwork
        have hempty : (Finset.univ.filter fun l => s.pics.asks l = true) = ∅ :=
          Finset.filter_eq_empty_iff.mpr fun l _ hl => hnone ⟨l, hl⟩
        rw [System.workload, hempty, hrun]
        rfl
      have hdriven (i : Fin 8) (hi : s.pics.driven.irr i = true) :
          s.pics.driven.requested.isSome :=
        Pic.requested_isSome _ (fun j => congrFun hmaster j) hi (congrFun h.unmasked.1 i)
      have hasked : s.pics.driven.requested.isSome := by
        cases l with
        | master i =>
            have hne : i ≠ cascadeLine := fun heq => by
              rw [heq, show s.pics.asks (.master cascadeLine) = false from h.cascade] at hl
              cases hl
            exact hdriven i ((s.pics.driven_of_ne hne).trans hl)
        | slave i =>
            have hslave := Pic.requested_isSome _ (fun j => congrFun hslave j) hl
              (congrFun h.unmasked.2 i)
            refine hdriven cascadeLine (s.pics.driven_cascade.trans ?_)
            rw [h.linked, hslave]
            rfl
      obtain ⟨i, hi⟩ := Option.isSome_iff_exists.mp hasked
      have hrequest : ∃ l, s.pics.requested = some l := by
        by_cases hcascade : i = cascadeLine
        · have hself := ((Pic.requested_eq_some_iff _).mp hi).1
          rw [hcascade, Pics.driven_cascade, h.linked, Bool.true_and] at hself
          obtain ⟨j, hj⟩ := Option.isSome_iff_exists.mp hself
          exact ⟨.slave j, by rw [Pics.requested, hi, Option.bind_some, if_pos hcascade, hj]; rfl⟩
        · exact ⟨.master i, by rw [Pics.requested, hi, Option.bind_some, if_neg hcascade]⟩
      obtain ⟨l, hl⟩ := hrequest
      exact ⟨.served l, _, True.intro, hrun, hl, rfl⟩

theorem Orderly.quiet_run (h : Orderly s) {events : List Event}
    (hrun : Trace (Step routines) s events s') (hquiet : ∀ e ∈ events, e.Quiet) :
    s'.workload + events.length = s.workload := by
  induction hrun with
  | nil => rfl
  | cons hstep _ ih =>
      have hrest := ih (h.step hstep) fun e he => hquiet e (List.mem_cons_of_mem _ he)
      have hone := hstep.workload h (hquiet _ List.mem_cons_self)
      rw [List.length_cons]
      omega

theorem workload_eq_zero_iff :
    s.workload = 0 ↔ s.running = none ∧ ∀ l, s.pics.asks l = false := by
  have hnone : s.running.toList.length = 0 ↔ s.running = none := by cases s.running <;> simp
  rw [System.workload, Nat.add_eq_zero_iff, hnone, and_comm]
  simp [Finset.filter_eq_empty_iff]

/-- **No line waits forever.** From every state of every run behind `initIDT`: if no device asks
again, the processor and the handlers come to rest whatever they do. Each of their steps brings
them nearer by one, there is a step until nothing waits, and then each line that asked has been
served once. -/
theorem irqs_drain {ps : Pics} {k : K} {before events : List Event}
    (hbefore : Trace (Step routines) (booted ps k) before s)
    (hrun : Trace (Step routines) s events s') (hquiet : ∀ e ∈ events, e.Quiet) :
    events.length ≤ s.workload ∧
      (events.length < s.workload → ∃ e s'', e.Quiet ∧ Step routines s' e s'') ∧
      (events.length = s.workload → s'.running = none ∧ ∀ l, s'.pics.asks l = false ∧
        events.count (.served l) = (s.pics.asks l).toNat) := by
  have hs := ((booted_orderly ps k).run hbefore).1
  obtain ⟨hs', hcount⟩ := hs.run hrun
  have hwork := hs.quiet_run hrun hquiet
  refine ⟨by omega, fun hlt => hs'.progress routines (by omega), fun heq => ?_⟩
  obtain ⟨hrest, hnone⟩ := workload_eq_zero_iff.mp (show s'.workload = 0 by omega)
  refine ⟨hrest, fun l => ⟨hnone l, ?_⟩⟩
  have hraised : events.count (.raised l) = 0 :=
    List.count_eq_zero.mpr fun hmem => hquiet _ hmem
  have hline := hcount l
  rw [hraised, hnone l] at hline
  exact hline.symm

/-- Two lines ask while no handler runs. -/
def waiting (l l' : Line) : System ℕ :=
  { booted unset 0 with pics := ((booted unset 0).pics.raise l).raise l' }

theorem trace_waiting : Trace (Step fun _ => some Nat.succ) (booted unset 0)
    [.raised (.slave 3), .raised (.master 0)] (waiting (.slave 3) (.master 0)) :=
  .cons ⟨by decide, by decide +kernel, rfl⟩ (.cons ⟨by decide, by decide +kernel, rfl⟩ (.nil _))

/-- Both are served in four steps. -/
theorem irqs_drain_waiting : ∃ s', Trace (Step fun _ => some Nat.succ)
    (waiting (.slave 3) (.master 0))
    [.served (.master 0), .returned 0x20, .served (.slave 3), .returned 0x2B] s' ∧
      s'.running = none := by
  have hrun : ∃ s', Trace (Step fun _ => some Nat.succ) (waiting (.slave 3) (.master 0))
      [.served (.master 0), .returned 0x20, .served (.slave 3), .returned 0x2B] s' :=
    ⟨_, .cons ⟨rfl, by decide +kernel, rfl⟩ (.cons ⟨by decide +kernel, rfl⟩
      (.cons ⟨rfl, by decide +kernel, rfl⟩ (.cons ⟨by decide +kernel, rfl⟩ (.nil _))))⟩
  have hquiet : ∀ e ∈ [Event.served (.master 0), .returned 0x20, .served (.slave 3),
      .returned 0x2B], e.Quiet := by
    simp [Event.Quiet]
  obtain ⟨s', hrun⟩ := hrun
  obtain ⟨-, -, hrest⟩ := irqs_drain trace_waiting hrun hquiet
  exact ⟨s', hrun, (hrest (by decide +kernel)).1⟩

/-- **The first line that asks is served first.** -/
theorem served_first {ps : Pics} {k : K} {before : List Event}
    (hbefore : Trace (Step routines) (booted ps k) before s) {l l' : Line}
    (hstep : Step routines s (.served l) s') (hl' : s.pics.asks l' = true) :
    l.rank ≤ l'.rank := by
  have hs := ((booted_orderly ps k).run hbefore).1
  obtain ⟨hrest, hrequest, -⟩ := hstep
  obtain ⟨hmaster, hslave⟩ := hs.at_rest hrest
  obtain ⟨i, hi, hl⟩ := Option.bind_eq_some_iff.mp hrequest
  have hline (j : Fin 8) (hj : s.pics.driven.irr j = true) : i ≤ j :=
    Pic.requested_le hi (congrFun hs.unmasked.1) hj
  have hmasterLine (j : Fin 8) (hj : s.pics.asks (.master j) = true) :
      j ≠ cascadeLine ∧ i ≤ j := by
    have hne : j ≠ cascadeLine := fun heq => by
      rw [heq, show s.pics.asks (.master cascadeLine) = false from hs.cascade] at hj
      cases hj
    exact ⟨hne, hline j ((s.pics.driven_of_ne hne).trans hj)⟩
  by_cases hcascade : i = cascadeLine
  · rw [if_pos hcascade] at hl
    obtain ⟨j, hj, rfl⟩ := Option.map_eq_some_iff.mp hl
    cases l' with
    | master j' =>
        obtain ⟨hne, hle⟩ := hmasterLine j' hl'
        have hval : cascadeLine.val = 2 := rfl
        rw [hcascade] at hle
        simp only [Line.rank]
        split_ifs <;> omega
    | slave j' => exact Nat.add_le_add_right (Pic.requested_le hj (congrFun hs.unmasked.2) hl') 2
  · rw [if_neg hcascade] at hl
    obtain rfl := Option.some.inj hl
    cases l' with
    | master j' =>
        obtain ⟨hne, hle⟩ := hmasterLine j' hl'
        simp only [Line.rank]
        split_ifs <;> omega
    | slave j' =>
        have hslave := Pic.requested_isSome _ (fun j => congrFun hslave j) hl'
          (congrFun hs.unmasked.2 j')
        have hle := hline cascadeLine (by rw [Pics.driven_cascade, hs.linked, hslave]; rfl)
        have hval : cascadeLine.val = 2 := rfl
        simp only [Line.rank]
        split_ifs <;> omega

/-- The timer is served before the line of the slave. -/
theorem served_first_waiting : (Line.master 0).rank ≤ (Line.slave 3).rank := by
  have hstep : Step (fun _ => some Nat.succ) (waiting (.slave 3) (.master 0))
      (.served (.master 0)) _ := ⟨rfl, by decide +kernel, rfl⟩
  exact served_first trace_waiting hstep (by decide +kernel)

end Quiet

end MasterOS.Interrupt
