/-
# Machines that may fault

A machine takes an event to its next state, or faults. A run is any sequence of events
that the machine takes without a fault, each allowed in the state it meets. What one
allowed step keeps, every run keeps.
-/

import Mathlib.Logic.Relation

namespace MasterOS.Math

variable {S E : Type}

/-- Any number of allowed events, taken without a fault. -/
def Runs (step : S → E → Option S) (allowed : S → E → Prop) : S → S → Prop :=
  Relation.ReflTransGen fun s s' => ∃ e, allowed s e ∧ step s e = some s'

variable {step : S → E → Option S} {allowed : S → E → Prop} {s s' : S}

/-- **The invariant rule.** -/
theorem Runs.invariant {I : S → Prop}
    (keeps : ∀ s e s', I s → allowed s e → step s e = some s' → I s')
    (hrun : Runs step allowed s s') (hs : I s) : I s' := by
  induction hrun with
  | refl => exact hs
  | tail _ hstep ih =>
      obtain ⟨e, hallowed, hstep⟩ := hstep
      exact keeps _ e _ ih hallowed hstep

/-- Take a list of events, as long as each passes a check. -/
def takeAll (step : S → E → Option S) (check : S → E → Bool) : List E → S → Option S
  | [], s => some s
  | e :: rest, s => if check s e then step s e >>= takeAll step check rest else none

/-- A list of events that pass the check is a run. -/
theorem runs_of_takeAll {check : S → E → Bool} (hcheck : ∀ s e, check s e = true → allowed s e)
    {events : List E} (h : takeAll step check events s = some s') : Runs step allowed s s' := by
  induction events generalizing s with
  | nil =>
      obtain rfl : s = s' := Option.some.inj h
      exact .refl
  | cons e rest ih =>
      rw [takeAll] at h
      by_cases hpass : check s e = true
      · rw [if_pos hpass] at h
        obtain ⟨next, hnext, hrest⟩ := Option.bind_eq_some_iff.mp h
        exact .head ⟨e, hcheck s e hpass, hnext⟩ (ih hrest)
      · rw [if_neg hpass] at h
        cases h

end MasterOS.Math
