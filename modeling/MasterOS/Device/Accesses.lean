/-
# Where a program reads and writes

A program stays within a set of addresses when every access does, whatever the device
answers. What can be said about the order of its accesses is said about the list of them that
a run makes; that promise composes over sequencing as the promises about results do.
-/

import MasterOS.Device.Meets
import MasterOS.Device.Refusal

namespace MasterOS.Device

namespace Prog

variable {A B ε α β : Type}

/-! ## Sets of addresses -/

/-- Every address that is read or written is in the set. -/
def Within (P : A → Prop) : Prog A B ε α → Prop
  | .ret _ => True
  | .stop _ => True
  | .read addr next => P addr ∧ ∀ answer, Within P (next answer)
  | .write addr _ next => P addr ∧ ∀ answer, Within P (next answer)

theorem Within.mono {P Q : A → Prop} {p : Prog A B ε α} (h : Within P p)
    (hle : ∀ addr, P addr → Q addr) : Within Q p := by
  induction p with
  | ret value => trivial
  | stop fault => trivial
  | read addr next ih => exact ⟨hle addr h.1, fun answer => ih answer (h.2 answer)⟩
  | write addr block next ih => exact ⟨hle addr h.1, fun answer => ih answer (h.2 answer)⟩

theorem Within.bind {P : A → Prop} {p : Prog A B ε α} {f : α → Prog A B ε β} (first : Within P p)
    (second : ∀ value, Within P (f value)) : Within P (p >>= f) := by
  induction p with
  | ret value => exact second value
  | stop fault => trivial
  | read addr next ih => exact ⟨first.1, fun answer => ih answer (first.2 answer)⟩
  | write addr block next ih => exact ⟨first.1, fun answer => ih answer (first.2 answer)⟩

theorem within_ite {P : A → Prop} {c : Prop} [Decidable c] {p q : Prog A B ε α}
    (hp : c → Within P p) (hq : ¬ c → Within P q) : Within P (if c then p else q) := by
  by_cases hc : c
  · rw [if_pos hc]
    exact hp hc
  · rw [if_neg hc]
    exact hq hc

/-- Nothing is read, and every address that is written is in the set. -/
def WritesWithin (P : A → Prop) : Prog A B ε α → Prop
  | .ret _ => True
  | .stop _ => True
  | .read _ _ => False
  | .write addr _ next => P addr ∧ ∀ answer, WritesWithin P (next answer)

theorem WritesWithin.bind {P : A → Prop} {p : Prog A B ε α} {f : α → Prog A B ε β}
    (first : WritesWithin P p) (second : ∀ value, WritesWithin P (f value)) :
    WritesWithin P (p >>= f) := by
  induction p with
  | ret value => exact second value
  | stop fault => trivial
  | read addr next ih => exact first.elim
  | write addr block next ih => exact ⟨first.1, fun answer => ih answer (first.2 answer)⟩

theorem writesWithin_ite {P : A → Prop} {c : Prop} [Decidable c] {p q : Prog A B ε α}
    (hp : c → WritesWithin P p) (hq : ¬ c → WritesWithin P q) :
    WritesWithin P (if c then p else q) := by
  by_cases hc : c
  · rw [if_pos hc]
    exact hp hc
  · rw [if_neg hc]
    exact hq hc

theorem WritesWithin.within {P : A → Prop} {p : Prog A B ε α} (h : WritesWithin P p) :
    Within P p := by
  induction p with
  | ret value => trivial
  | stop fault => trivial
  | read addr next ih => exact h.elim
  | write addr block next ih => exact ⟨h.1, fun answer => ih answer (h.2 answer)⟩

/-! ## The accesses of a run -/

/-- An access to an address. -/
inductive Access (A : Type) : Type
  | read (addr : A)
  | write (addr : A)

variable [DecidableEq A]

/-- The accesses of a run in order: the reads that are answered and all writes. -/
def accesses : Prog A B ε α → Answers → (A → B) → List (Access A)
  | .ret _, _, _ => []
  | .stop _, _, _ => []
  | .read addr next, answers, disk =>
      if answers.reads 0 then
        .read addr :: accesses (next (some (disk addr))) answers.afterRead disk
      else accesses (next none) answers.afterRead disk
  | .write addr block next, answers, disk =>
      .write addr :: match answers.writes 0 with
        | .done => accesses (next true) answers.afterWrite (Function.update disk addr block)
        | .refused => accesses (next false) answers.afterWrite disk
        | .refusedLate =>
            accesses (next false) answers.afterWrite (Function.update disk addr block)

/-- Sequencing makes the accesses of the first program, then those of the second. -/
theorem accesses_bind (p : Prog A B ε α) (f : α → Prog A B ε β) (answers : Answers)
    (disk : A → B) : (p >>= f).accesses answers disk = p.accesses answers disk ++
      match p.run answers disk with
      | (.ok value, disk') => (f value).accesses (p.left answers disk) disk'
      | (.error _, _) => [] := by
  induction p generalizing answers disk with
  | ret | stop => rfl
  | read addr next ih =>
      rw [read_bind]
      cases hread : answers.reads 0 with
      | true => simp only [accesses, run, left, hread, if_true, ih, List.cons_append]
      | false => simp only [accesses, run, left, hread, Bool.false_eq_true, if_false, ih]
  | write addr block next ih =>
      rw [write_bind]
      cases hwrite : answers.writes 0 with
      | done => simp only [accesses, run, left, hwrite, ih, List.cons_append]
      | refused => simp only [accesses, run, left, hwrite, ih, List.cons_append]
      | refusedLate => simp only [accesses, run, left, hwrite, ih, List.cons_append]

/-- From this disk, and with these accesses made before, what is returned satisfies `Q` with
all accesses and the disk that is left. -/
def Traces (Q : α → List (Access A) → (A → B) → Prop) :
    Prog A B ε α → List (Access A) → (A → B) → Prop
  | .ret value, past, disk => Q value past disk
  | .stop _, _, _ => True
  | .read addr next, past, disk =>
      Traces Q (next none) past disk ∧
        Traces Q (next (some (disk addr))) (past ++ [.read addr]) disk
  | .write addr block next, past, disk =>
      Traces Q (next true) (past ++ [.write addr]) (Function.update disk addr block) ∧
        Traces Q (next false) (past ++ [.write addr]) disk ∧
        Traces Q (next false) (past ++ [.write addr]) (Function.update disk addr block)

variable {Q : α → List (Access A) → (A → B) → Prop} {R : β → List (Access A) → (A → B) → Prop}
  {past : List (Access A)} {disk : A → B}

/-- The sequencing rule. -/
theorem Traces.bind {p : Prog A B ε α} {f : α → Prog A B ε β} (first : Traces Q p past disk)
    (second : ∀ value all disk, Q value all disk → Traces R (f value) all disk) :
    Traces R (p >>= f) past disk := by
  induction p generalizing past disk with
  | ret value => exact second value past disk first
  | stop fault => trivial
  | read addr next ih => exact ⟨ih none first.1, ih _ first.2⟩
  | write addr block next ih =>
      exact ⟨ih true first.1, ih false first.2.1, ih false first.2.2⟩

/-- The rule of consequence. -/
theorem Traces.mono {Q' : α → List (Access A) → (A → B) → Prop} {p : Prog A B ε α}
    (h : Traces Q p past disk) (weaker : ∀ value all disk, Q value all disk → Q' value all disk) :
    Traces Q' p past disk := by
  induction p generalizing past disk with
  | ret value => exact weaker value past disk h
  | stop fault => trivial
  | read addr next ih => exact ⟨ih none h.1, ih _ h.2⟩
  | write addr block next ih => exact ⟨ih true h.1, ih false h.2.1, ih false h.2.2⟩

theorem traces_ite {c : Prop} [Decidable c] {p q : Prog A B ε α}
    (hp : c → Traces Q p past disk) (hq : ¬ c → Traces Q q past disk) :
    Traces Q (if c then p else q) past disk := by
  by_cases hc : c
  · rw [if_pos hc]
    exact hp hc
  · rw [if_neg hc]
    exact hq hc

/-- What is promised about the result and the disk may be added. -/
theorem Traces.and_meets {bad : ε → Prop} {Q' : α → (A → B) → Prop} {p : Prog A B ε α}
    (h : Traces Q p past disk) (hmeets : Meets bad Q' p disk) :
    Traces (fun value all disk => Q value all disk ∧ Q' value disk) p past disk := by
  induction p generalizing past disk with
  | ret value => exact ⟨h, hmeets⟩
  | stop fault => trivial
  | read addr next ih => exact ⟨ih none h.1 hmeets.1, ih _ h.2 hmeets.2⟩
  | write addr block next ih =>
      exact ⟨ih true h.1 hmeets.1, ih false h.2.1 hmeets.2.1, ih false h.2.2 hmeets.2.2⟩

/-- A program that only writes adds writes. -/
theorem WritesWithin.traces {P : A → Prop} {p : Prog A B ε α} (h : WritesWithin P p)
    (past : List (Access A)) (disk : A → B) :
    Traces (fun _ all _ => ∃ addrs : List A, (∀ addr ∈ addrs, P addr) ∧
      all = past ++ addrs.map .write) p past disk := by
  induction p generalizing past disk with
  | ret value => exact ⟨[], (by simp), (List.append_nil _).symm⟩
  | stop fault => trivial
  | read addr next ih => exact h.elim
  | write addr block next ih =>
      have hnext (answer : Bool) (disk : A → B) :
          Traces (fun _ all _ => ∃ addrs : List A, (∀ addr ∈ addrs, P addr) ∧
            all = past ++ addrs.map .write) (next answer) (past ++ [.write addr]) disk := by
        refine (ih answer (h.2 _) _ disk).mono ?_
        rintro value all disk' ⟨addrs, haddrs, rfl⟩
        exact ⟨addr :: addrs, List.forall_mem_cons.mpr ⟨h.1, haddrs⟩, List.append_assoc _ _ _⟩
      exact ⟨hnext _ _, hnext _ _, hnext _ _⟩

/-- **The promise is about every run that returns.** -/
theorem Traces.of_run {p : Prog A B ε α} (h : Traces Q p past disk) {answers : Answers}
    {value : α} {disk' : A → B} (hrun : p.run answers disk = (.ok value, disk')) :
    Q value (past ++ p.accesses answers disk) disk' := by
  induction p generalizing past disk answers with
  | ret value' =>
      obtain ⟨rfl, rfl⟩ : value' = value ∧ disk = disk' := by simpa [run] using hrun
      rw [accesses, List.append_nil]
      exact h
  | stop fault =>
      injection hrun with hresult
      injection hresult
  | read addr next ih =>
      rw [run] at hrun
      rw [accesses]
      by_cases hread : answers.reads 0 = true
      · rw [if_pos hread] at hrun ⊢
        rw [List.append_cons]
        exact ih _ h.2 hrun
      · rw [if_neg hread] at hrun ⊢
        exact ih _ h.1 hrun
  | write addr block next ih =>
      rw [run] at hrun
      rw [accesses, List.append_cons]
      cases hanswer : answers.writes 0 with
      | done =>
          rw [hanswer] at hrun
          exact ih _ h.1 hrun
      | refused =>
          rw [hanswer] at hrun
          exact ih _ h.2.1 hrun
      | refusedLate =>
          rw [hanswer] at hrun
          exact ih _ h.2.2 hrun

/-! ## Runs that stay within a set -/

/-- Every address that is read or written in the answered run is in the set. -/
def Stays (P : A → Prop) : Prog A B ε α → (A → B) → Prop
  | .ret _, _ => True
  | .stop _, _ => True
  | .read addr next, disk => P addr ∧ Stays P (next (some (disk addr))) disk
  | .write addr block next, disk =>
      P addr ∧ Stays P (next true) (Function.update disk addr block)

/-- Every address that is read in the answered run is in the set. -/
def ReadsStay (P : A → Prop) : Prog A B ε α → (A → B) → Prop
  | .ret _, _ => True
  | .stop _, _ => True
  | .read addr next, disk => P addr ∧ ReadsStay P (next (some (disk addr))) disk
  | .write addr block next, disk => ReadsStay P (next true) (Function.update disk addr block)

/-- The reads and the list of writes together are all accesses. -/
theorem stays_iff {P : A → Prop} {p : Prog A B ε α} {disk : A → B} :
    Stays P p disk ↔ ReadsStay P p disk ∧ ∀ entry ∈ (p.exec disk).2, P entry.1 := by
  induction p generalizing disk with
  | ret value => simp [Stays, ReadsStay]
  | stop fault => simp [Stays, ReadsStay]
  | read addr next ih => rw [Stays, ReadsStay, exec_read, ih, and_assoc]
  | write addr block next ih =>
      rw [Stays, ReadsStay, exec_write, ih, List.forall_mem_cons]
      exact and_left_comm

theorem Stays.mono {P Q : A → Prop} {p : Prog A B ε α} {disk : A → B} (h : Stays P p disk)
    (hle : ∀ addr, P addr → Q addr) : Stays Q p disk := by
  induction p generalizing disk with
  | ret | stop => trivial
  | read addr next ih => exact ⟨hle addr h.1, ih _ h.2⟩
  | write addr block next ih => exact ⟨hle addr h.1, ih _ h.2⟩

theorem Within.readsStay {P : A → Prop} {p : Prog A B ε α} (h : Within P p) (disk : A → B) :
    ReadsStay P p disk := by
  induction p generalizing disk with
  | ret | stop => trivial
  | read addr next ih => exact ⟨h.1, ih _ (h.2 _) disk⟩
  | write addr block next ih => exact ih _ (h.2 _) _

theorem WritesWithin.readsStay {P Q : A → Prop} {p : Prog A B ε α} (h : WritesWithin Q p)
    (disk : A → B) : ReadsStay P p disk := by
  induction p generalizing disk with
  | ret | stop => trivial
  | read addr next ih => exact h.elim
  | write addr block next ih => exact ih _ (h.2 _) _

/-- The sequencing rule: the second program runs on what the first one leaves. -/
theorem ReadsStay.bind {P : A → Prop} {p : Prog A B ε α} {f : α → Prog A B ε β} {disk : A → B}
    (first : ReadsStay P p disk) (second : ∀ value writes, p.Returns disk value writes →
      ReadsStay P (f value) (applyWrites writes disk)) : ReadsStay P (p >>= f) disk := by
  induction p generalizing disk with
  | ret value => exact second value [] rfl
  | stop fault => trivial
  | read addr next ih => exact ⟨first.1, ih _ first.2 second⟩
  | write addr block next ih =>
      refine ih _ first fun value writes h => ?_
      refine second value ((addr, block) :: writes) ?_
      rw [Returns, exec_write, show (next true).exec _ = (.ok value, writes) from h]

theorem readsStay_ite {P : A → Prop} {c : Prop} [Decidable c] {p q : Prog A B ε α}
    {disk : A → B} (hp : c → ReadsStay P p disk) (hq : ¬ c → ReadsStay P q disk) :
    ReadsStay P (if c then p else q) disk := by
  by_cases hc : c
  · rw [if_pos hc]
    exact hp hc
  · rw [if_neg hc]
    exact hq hc

end Prog

end MasterOS.Device
