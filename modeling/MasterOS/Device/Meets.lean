/-
# Whatever the device answers

A program meets a promise from some disk when no list of answers makes it stop with a bad
fault, and every result it returns satisfies a property together with the disk that it
leaves. The promise follows the tree of the program and composes over sequencing, as the
rules of weakest preconditions do.
-/

import MasterOS.Device.Program

namespace MasterOS.Device

namespace Prog

variable {A B ε α β : Type} [DecidableEq A]

/-- From this disk no bad fault is met, and what is returned satisfies `Q` with the disk. A
refused write may have reached the disk. -/
def Meets (bad : ε → Prop) (Q : α → (A → B) → Prop) : Prog A B ε α → (A → B) → Prop
  | .ret value, disk => Q value disk
  | .stop fault, _ => ¬ bad fault
  | .read addr next, disk =>
      Meets bad Q (next none) disk ∧ Meets bad Q (next (some (disk addr))) disk
  | .write addr block next, disk =>
      Meets bad Q (next true) (Function.update disk addr block) ∧
        Meets bad Q (next false) disk ∧ Meets bad Q (next false) (Function.update disk addr block)

/-- The outcome of a run keeps the promise. -/
def Kept (bad : ε → Prop) (Q : α → (A → B) → Prop) : Except ε α × (A → B) → Prop
  | (.ok value, disk) => Q value disk
  | (.error fault, _) => ¬ bad fault

variable {bad : ε → Prop} {Q : α → (A → B) → Prop} {R : β → (A → B) → Prop}

/-- The sequencing rule. -/
theorem Meets.bind {p : Prog A B ε α} {f : α → Prog A B ε β} {disk : A → B}
    (first : Meets bad Q p disk)
    (second : ∀ value disk, Q value disk → Meets bad R (f value) disk) :
    Meets bad R (p >>= f) disk := by
  induction p generalizing disk with
  | ret value => exact second value disk first
  | stop fault => exact first
  | read addr next ih => exact ⟨ih none first.1, ih _ first.2⟩
  | write addr block next ih =>
      exact ⟨ih true first.1, ih false first.2.1, ih false first.2.2⟩

/-- The rule of consequence. -/
theorem Meets.mono {Q' : α → (A → B) → Prop} {p : Prog A B ε α} {disk : A → B}
    (h : Meets bad Q p disk) (weaker : ∀ value disk, Q value disk → Q' value disk) :
    Meets bad Q' p disk := by
  induction p generalizing disk with
  | ret value => exact weaker value disk h
  | stop fault => exact h
  | read addr next ih => exact ⟨ih none h.1, ih _ h.2⟩
  | write addr block next ih => exact ⟨ih true h.1, ih false h.2.1, ih false h.2.2⟩

theorem meets_ite {c : Prop} [Decidable c] {p q : Prog A B ε α} {disk : A → B}
    (hp : c → Meets bad Q p disk) (hq : ¬ c → Meets bad Q q disk) :
    Meets bad Q (if c then p else q) disk := by
  by_cases hc : c
  · rw [if_pos hc]
    exact hp hc
  · rw [if_neg hc]
    exact hq hc

/-- **The promise is about every list of answers.** -/
theorem meets_iff_run {p : Prog A B ε α} {disk : A → B} :
    Meets bad Q p disk ↔ ∀ answers, Kept bad Q (p.run answers disk) := by
  induction p generalizing disk with
  | ret value => exact ⟨fun h _ => h, fun h => h ⟨fun _ => true, fun _ => .done⟩⟩
  | stop fault => exact ⟨fun h _ => h, fun h => h ⟨fun _ => true, fun _ => .done⟩⟩
  | read addr next ih =>
      rw [Meets, ih, ih]
      constructor
      · rintro ⟨hnone, hsome⟩ answers
        rw [run]
        by_cases hread : answers.reads 0
        · rw [if_pos hread]
          exact hsome _
        · rw [if_neg hread]
          exact hnone _
      · intro h
        refine ⟨fun answers => ?_, fun answers => ?_⟩
        · exact h ⟨fun n => n.casesOn false answers.reads, answers.writes⟩
        · exact h ⟨fun n => n.casesOn true answers.reads, answers.writes⟩
  | write addr block next ih =>
      rw [Meets, ih, ih, ih]
      constructor
      · rintro ⟨hdone, hrefused, hlate⟩ answers
        rw [run]
        cases answers.writes 0 with
        | done => exact hdone _
        | refused => exact hrefused _
        | refusedLate => exact hlate _
      · intro h
        refine ⟨fun answers => ?_, fun answers => ?_, fun answers => ?_⟩
        · exact h ⟨answers.reads, fun n => n.casesOn .done answers.writes⟩
        · exact h ⟨answers.reads, fun n => n.casesOn .refused answers.writes⟩
        · exact h ⟨answers.reads, fun n => n.casesOn .refusedLate answers.writes⟩

/-- What every run leaves may be added to a promise. -/
theorem Meets.and_run {Q' : α → (A → B) → Prop} {p : Prog A B ε α} {disk : A → B}
    (h : Meets bad Q p disk)
    (hruns : ∀ answers value disk', p.run answers disk = (.ok value, disk') → Q' value disk') :
    Meets bad (fun value disk => Q value disk ∧ Q' value disk) p disk := by
  rw [meets_iff_run] at h ⊢
  intro answers
  have hkept := h answers
  cases hrun : p.run answers disk with
  | mk result disk' =>
      rw [hrun] at hkept
      cases result with
      | error fault => exact hkept
      | ok value => exact ⟨hkept, hruns answers value disk' hrun⟩

/-- The run in which every access is answered keeps the promise. -/
theorem Meets.exec {p : Prog A B ε α} {disk : A → B} (h : Meets bad Q p disk) :
    Kept bad Q ((p.exec disk).1, applyWrites (p.exec disk).2 disk) := by
  induction p generalizing disk with
  | ret value => exact h
  | stop fault => exact h
  | read addr next ih => exact ih _ h.2
  | write addr block next ih => exact ih true h.1

theorem Meets.returns {p : Prog A B ε α} {disk : A → B} {value : α} {writes : List (A × B)}
    (h : Meets bad Q p disk) (hreturns : p.Returns disk value writes) :
    Q value (applyWrites writes disk) := by
  have hkept := h.exec
  rw [show p.exec disk = (.ok value, writes) from hreturns] at hkept
  exact hkept

theorem Meets.not_stops {p : Prog A B ε α} {disk : A → B} {fault : ε} (h : Meets bad Q p disk)
    (hbad : bad fault) : (p.exec disk).1 ≠ .error fault := by
  intro hstops
  have hkept := h.exec
  rw [hstops] at hkept
  exact hkept hbad

end Prog

end MasterOS.Device
