/-
# Traces and simulations

A system of labelled steps takes its states through traces, lists of the labels that an
observer sees. One system simulates another along a relation when each step of the second
can be followed by a step of the first under the same label, with the states related again;
then every trace of the second is a trace of the first. The relation may be asked to hold
only beside an invariant of the second system.
-/

import Mathlib.Data.List.Basic

namespace MasterOS.Math

universe u v w

variable {S : Type u} {A : Type v} {L : Type w}

/-- From a state to a state by steps with these labels. -/
inductive Trace (step : S → L → S → Prop) : S → List L → S → Prop
  | nil (s : S) : Trace step s [] s
  | cons {s s' s'' : S} {label : L} {labels : List L} : step s label s' →
      Trace step s' labels s'' → Trace step s (label :: labels) s''

namespace Trace

variable {step : S → L → S → Prop} {s s' : S} {labels : List L}

theorem single {label : L} (h : step s label s') : Trace step s [label] s' := .cons h (.nil s')

/-- A fact that steps with the labels of a trace keep is kept along the trace. -/
theorem keeps_of_labels (h : Trace step s labels s') (I : S → Prop) (quiet : L → Prop)
    (keeps : ∀ s label s', quiet label → I s → step s label s' → I s')
    (hquiet : ∀ label ∈ labels, quiet label) (hs : I s) : I s' := by
  induction h with
  | nil => exact hs
  | cons hstep _ ih =>
      have hfirst := hquiet _ List.mem_cons_self
      exact ih (fun label hmem => hquiet label (List.mem_cons_of_mem _ hmem))
        (keeps _ _ _ hfirst hs hstep)

end Trace

/-- Each step from related states is followed by one under the same label. -/
def Simulates (step : S → L → S → Prop) (step' : A → L → A → Prop) (R : S → A → Prop) : Prop :=
  ∀ s a label s', R s a → step s label s' → ∃ a', step' a label a' ∧ R s' a'

/-- **A simulation follows whole traces.** -/
theorem Simulates.trace {step : S → L → S → Prop} {step' : A → L → A → Prop} {R : S → A → Prop}
    (hsim : Simulates step step' R) {s s' : S} {a : A} {labels : List L} (hR : R s a)
    (h : Trace step s labels s') : ∃ a', Trace step' a labels a' ∧ R s' a' := by
  induction h generalizing a with
  | nil s => exact ⟨a, .nil a, hR⟩
  | cons hstep _ ih =>
      obtain ⟨a₁, hstep', hR₁⟩ := hsim _ _ _ _ hR hstep
      obtain ⟨a', htrace, hR'⟩ := ih hR₁
      exact ⟨a', .cons hstep' htrace, hR'⟩

end MasterOS.Math
