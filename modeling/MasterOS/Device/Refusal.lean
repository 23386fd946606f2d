/-
# Refusals

What a program makes of a device that refuses. A run is answered when it meets no
refusal; the answers it meets are the first ones of the list, as many as the run in which
everything is answered has reads and writes.

A program reports refusals when every path behind one ends in a result that says so. The
property follows the tree of the program, composes over sequencing, and makes every good
result of a run the result of an answered run. A program hides them when a refusal is
followed by a result that looks good.
-/

import MasterOS.Device.Program

namespace MasterOS.Device

namespace Prog

variable {A B ε α β : Type}

/-- Every refusal leads to a result with `bad`, and to nothing else. -/
def Reports (bad : α → Prop) : Prog A B ε α → Prop
  | .ret _ => True
  | .stop _ => True
  | .read _ next => Always bad (next none) ∧ ∀ block, Reports bad (next (some block))
  | .write _ _ next => Always bad (next false) ∧ Reports bad (next true)

/-- A program that only ends badly has nothing to report. -/
theorem Always.reports {bad : α → Prop} {p : Prog A B ε α} (holds : Always bad p) :
    Reports bad p := by
  induction p with
  | ret | stop => trivial
  | read addr next ih => exact ⟨holds none, fun block => ih _ (holds _)⟩
  | write addr block next ih => exact ⟨holds false, ih _ (holds _)⟩

/-- The sequencing rule: a bad first result leads to bad results only, and after any other
the second program reports. -/
theorem Reports.bind {bad : α → Prop} {worse : β → Prop} {p : Prog A B ε α}
    {f : α → Prog A B ε β} (first : Reports bad p)
    (passed : ∀ value, bad value → Always worse (f value))
    (second : ∀ value, ¬ bad value → Reports worse (f value)) : Reports worse (p >>= f) := by
  induction p with
  | ret value =>
      by_cases hbad : bad value
      · exact (passed value hbad).reports
      · exact second value hbad
  | stop fault => trivial
  | read addr next ih =>
      exact ⟨first.1.bind passed, fun block => ih (some block) (first.2 block)⟩
  | write addr block next ih => exact ⟨first.1.bind passed, ih true first.2⟩

/-- Sequencing after a program that accesses nothing. -/
theorem Reports.bind_pure {worse : β → Prop} {p : Prog A B ε α} {f : α → Prog A B ε β}
    (first : Reports (fun _ => False) p) (second : ∀ value, Reports worse (f value)) :
    Reports worse (p >>= f) :=
  first.bind (fun _ h => h.elim) fun value _ => second value

theorem Reports.mono {bad worse : α → Prop} {p : Prog A B ε α} (h : Reports bad p)
    (weaker : ∀ value, bad value → worse value) : Reports worse p := by
  induction p with
  | ret | stop => trivial
  | read addr next ih => exact ⟨h.1.mono weaker, fun block => ih _ (h.2 block)⟩
  | write addr block next ih => exact ⟨h.1.mono weaker, ih _ h.2⟩

theorem reports_ite {c : Prop} [Decidable c] {bad : α → Prop} {p q : Prog A B ε α}
    (hp : c → Reports bad p) (hq : ¬ c → Reports bad q) : Reports bad (if c then p else q) := by
  by_cases hc : c
  · rw [if_pos hc]
    exact hp hc
  · rw [if_neg hc]
    exact hq hc

/-- The program never writes. -/
def ReadOnly : Prog A B ε α → Prop
  | .ret _ => True
  | .stop _ => True
  | .read _ next => ∀ answer, ReadOnly (next answer)
  | .write _ _ _ => False

theorem ReadOnly.bind {p : Prog A B ε α} {f : α → Prog A B ε β} (first : ReadOnly p)
    (second : ∀ value, ReadOnly (f value)) : ReadOnly (p >>= f) := by
  induction p with
  | ret value => exact second value
  | stop fault => trivial
  | read addr next ih => exact fun answer => ih answer (first answer)
  | write addr block next ih => exact first.elim

/-- A program that only reads, and returns something good right after any refusal. -/
def Hides (good : α → Prop) : Prog A B ε α → Prop
  | .ret _ => True
  | .stop _ => True
  | .read _ next => (∃ value, next none = .ret value ∧ good value) ∧
      ∀ block, Hides good (next (some block))
  | .write _ _ _ => False

/-- The sequencing rule: a good first result is passed on at once, and after any other the
second program hides refusals. -/
theorem Hides.bind {good : α → Prop} {better : β → Prop} {p : Prog A B ε α}
    {f : α → Prog A B ε β} (first : Hides good p)
    (passed : ∀ value, good value → ∃ later, f value = .ret later ∧ better later)
    (second : ∀ value, ¬ good value → Hides better (f value)) : Hides better (p >>= f) := by
  induction p with
  | ret value =>
      by_cases hgood : good value
      · obtain ⟨later, hlater, -⟩ := passed value hgood
        rw [ret_bind, hlater]
        trivial
      · exact second value hgood
  | stop fault => trivial
  | read addr next ih =>
      obtain ⟨⟨value, hvalue, hgood⟩, hrest⟩ := first
      obtain ⟨later, hlater, hbetter⟩ := passed value hgood
      refine ⟨⟨later, ?_, hbetter⟩, fun block => ih (some block) (hrest block)⟩
      show (next none >>= f) = .ret later
      rw [hvalue, ret_bind, hlater]
  | write addr block next ih => exact first.elim

variable [DecidableEq A]

/-! ## Answered runs -/

/-- The run meets no refusal. -/
def Answered : Prog A B ε α → Answers → (A → B) → Prop
  | .ret _, _, _ => True
  | .stop _, _, _ => True
  | .read addr next, answers, disk =>
      answers.reads 0 = true ∧ Answered (next (some (disk addr))) answers.afterRead disk
  | .write addr block next, answers, disk =>
      answers.writes 0 = .done ∧
        Answered (next true) answers.afterWrite (Function.update disk addr block)

/-- The answers a run leaves for what comes behind it. -/
def left : Prog A B ε α → Answers → (A → B) → Answers
  | .ret _, answers, _ => answers
  | .stop _, answers, _ => answers
  | .read addr next, answers, disk =>
      left (next (if answers.reads 0 then some (disk addr) else none)) answers.afterRead disk
  | .write addr block next, answers, disk =>
      match answers.writes 0 with
      | .done => left (next true) answers.afterWrite (Function.update disk addr block)
      | .refused => left (next false) answers.afterWrite disk
      | .refusedLate => left (next false) answers.afterWrite (Function.update disk addr block)

/-- The number of reads when every access is answered. -/
def readCount : Prog A B ε α → (A → B) → ℕ
  | .ret _, _ => 0
  | .stop _, _ => 0
  | .read addr next, disk => readCount (next (some (disk addr))) disk + 1
  | .write addr block next, disk => readCount (next true) (Function.update disk addr block)

/-- Sequencing runs the second program on the disk and with the answers that are left. -/
theorem run_bind (p : Prog A B ε α) (f : α → Prog A B ε β) (answers : Answers) (disk : A → B) :
    (p >>= f).run answers disk =
      match p.run answers disk with
      | (.ok value, disk') => (f value).run (p.left answers disk) disk'
      | (.error fault, disk') => (.error fault, disk') := by
  induction p generalizing answers disk with
  | ret | stop => rfl
  | read addr next ih => exact ih _ _ _
  | write addr block next ih =>
      rw [write_bind]
      cases hwrite : answers.writes 0 with
      | done => simp only [run, left, hwrite]; exact ih _ _ _
      | refused => simp only [run, left, hwrite]; exact ih _ _ _
      | refusedLate => simp only [run, left, hwrite]; exact ih _ _ _

/-- An answered run is the run in which everything is answered. -/
theorem Answered.run_eq {p : Prog A B ε α} {answers : Answers} {disk : A → B}
    (h : p.Answered answers disk) :
    p.run answers disk = ((p.exec disk).1, applyWrites (p.exec disk).2 disk) := by
  induction p generalizing answers disk with
  | ret | stop => rfl
  | read addr next ih =>
      simp only [run, h.1, if_true]
      exact ih _ h.2
  | write addr block next ih =>
      simp only [run, h.1]
      exact ih true h.2

theorem answered_bind_iff {p : Prog A B ε α} {f : α → Prog A B ε β} {answers : Answers}
    {disk : A → B} : (p >>= f).Answered answers disk ↔
      p.Answered answers disk ∧ ∀ value disk', p.run answers disk = (.ok value, disk') →
        (f value).Answered (p.left answers disk) disk' := by
  induction p generalizing answers disk with
  | ret value =>
      constructor
      · intro h
        refine ⟨trivial, fun value' disk' hrun => ?_⟩
        injection hrun with hvalue hdisk
        injection hvalue with hvalue
        subst hvalue hdisk
        exact h
      · exact fun h => h.2 value disk rfl
  | stop fault =>
      constructor
      · intro _
        refine ⟨trivial, fun value' disk' hrun => ?_⟩
        injection hrun with hvalue
        injection hvalue
      · exact fun _ => trivial
  | read addr next ih =>
      rw [read_bind]
      constructor
      · rintro ⟨hread, hrest⟩
        simp only [Answered, run, left, hread, if_true, true_and]
        exact (ih _).mp hrest
      · rintro ⟨⟨hread, hfirst⟩, hsecond⟩
        simp only [run, left, hread, if_true] at hsecond
        exact ⟨hread, (ih _).mpr ⟨hfirst, hsecond⟩⟩
  | write addr block next ih =>
      rw [write_bind]
      constructor
      · rintro ⟨hwrite, hrest⟩
        simp only [Answered, run, left, hwrite, true_and]
        exact (ih _).mp hrest
      · rintro ⟨⟨hwrite, hfirst⟩, hsecond⟩
        simp only [run, left, hwrite] at hsecond
        exact ⟨hwrite, (ih _).mpr ⟨hfirst, hsecond⟩⟩

/-- A run is answered when the answers to its first reads and writes, as many as the
answered run has, are not refusals. -/
theorem answered_iff {p : Prog A B ε α} {answers : Answers} {disk : A → B} :
    p.Answered answers disk ↔ (∀ n < p.readCount disk, answers.reads n = true) ∧
      ∀ n < (p.exec disk).2.length, answers.writes n = .done := by
  induction p generalizing answers disk with
  | ret | stop => simp [Answered, readCount]
  | read addr next ih =>
      rw [Answered, ih, readCount, Nat.forall_lt_succ_left, and_assoc]
      rfl
  | write addr block next ih =>
      rw [Answered, ih, readCount, exec_write, List.length_cons, Nat.forall_lt_succ_left]
      exact and_left_comm

theorem readCount_bind (p : Prog A B ε α) (f : α → Prog A B ε β) (disk : A → B) :
    (p >>= f).readCount disk = p.readCount disk +
      match p.exec disk with
      | (.ok value, writes) => (f value).readCount (applyWrites writes disk)
      | (.error _, _) => 0 := by
  induction p generalizing disk with
  | ret value => exact (Nat.zero_add _).symm
  | stop fault => rfl
  | read addr next ih =>
      rw [read_bind, readCount, ih, readCount, exec_read]
      omega
  | write addr block next ih =>
      rw [write_bind, readCount, ih, readCount, exec_write]
      rcases (next true).exec (Function.update disk addr block) with ⟨fault | value, writes⟩ <;> rfl

/-! ## Programs that report -/

/-- **What is reported is seen.** A run of a reporting program with a result that is not
bad meets no refusal. -/
theorem Reports.answered {bad : α → Prop} {p : Prog A B ε α} (h : Reports bad p)
    {answers : Answers} {disk disk' : A → B} {value : α}
    (hrun : p.run answers disk = (.ok value, disk')) (hgood : ¬ bad value) :
    p.Answered answers disk := by
  induction p generalizing answers disk with
  | ret | stop => trivial
  | read addr next ih =>
      cases hread : answers.reads 0 with
      | true =>
          simp only [run, hread, if_true] at hrun
          exact ⟨hread, ih _ (h.2 _) hrun⟩
      | false =>
          simp only [run, hread] at hrun
          exact absurd (h.1.of_run (congrArg Prod.fst hrun)) hgood
  | write addr block next ih =>
      cases hwrite : answers.writes 0 with
      | done =>
          simp only [run, hwrite] at hrun
          exact ⟨hwrite, ih true h.2 hrun⟩
      | refused =>
          simp only [run, hwrite] at hrun
          exact absurd (h.1.of_run (congrArg Prod.fst hrun)) hgood
      | refusedLate =>
          simp only [run, hwrite] at hrun
          exact absurd (h.1.of_run (congrArg Prod.fst hrun)) hgood

/-- A program that hides refusals returns something good whenever it meets one. -/
theorem Hides.exists_run {good : α → Prop} {p : Prog A B ε α} (h : Hides good p)
    {answers : Answers} {disk : A → B} (hrefused : ¬ p.Answered answers disk) :
    ∃ value, p.run answers disk = (.ok value, disk) ∧ good value := by
  induction p generalizing answers with
  | ret | stop => exact absurd trivial hrefused
  | read addr next ih =>
      cases hread : answers.reads 0 with
      | true =>
          simp only [run, hread, if_true]
          exact ih _ (h.2 _) fun hrest => hrefused ⟨hread, hrest⟩
      | false =>
          obtain ⟨value, hvalue, hgood⟩ := h.1
          exact ⟨value, by simp [run, hread, hvalue], hgood⟩
  | write addr block next ih => exact h.elim

/-! ## Programs that only read -/

theorem ReadOnly.exec_snd {p : Prog A B ε α} (h : ReadOnly p) (disk : A → B) :
    (p.exec disk).2 = [] := by
  induction p with
  | ret | stop => rfl
  | read addr next ih => exact ih _ (h _)
  | write addr block next ih => exact h.elim

/-- Behind a program that only reads the writes are answered as they were before it. -/
theorem ReadOnly.left_writes {p : Prog A B ε α} (h : ReadOnly p) (answers : Answers)
    (disk : A → B) : (p.left answers disk).writes = answers.writes := by
  induction p generalizing answers with
  | ret | stop => rfl
  | read addr next ih => exact ih _ (h _) answers.afterRead
  | write addr block next ih => exact h.elim

/-! ## Programs that only write -/

/-- The program is `n` writes. It returns something bad right after a write that is
refused, and something that is not bad after the last. -/
def WritesAll (bad : α → Prop) : ℕ → Prog A B ε α → Prop
  | 0, .ret value => ¬ bad value
  | n + 1, .write _ _ next => (∃ value, next false = .ret value ∧ bad value) ∧
      WritesAll bad n (next true)
  | _, _ => False

omit [DecidableEq A] in
/-- The sequencing rule: a bad first result is passed on, and after any other the second
program writes on. -/
theorem WritesAll.bind {bad : α → Prop} {worse : β → Prop} {n k : ℕ} {p : Prog A B ε α}
    {f : α → Prog A B ε β} (first : WritesAll bad n p)
    (passed : ∀ value, bad value → ∃ later, f value = .ret later ∧ worse later)
    (second : ∀ value, ¬ bad value → WritesAll worse k (f value)) :
    WritesAll worse (n + k) (p >>= f) := by
  induction p generalizing n with
  | ret value =>
      cases n with
      | zero =>
          rw [Nat.zero_add]
          exact second value first
      | succ n => exact first.elim
  | stop fault => cases n <;> exact first.elim
  | read addr next ih => cases n <;> exact first.elim
  | write addr block next ih =>
      cases n with
      | zero => exact first.elim
      | succ n =>
          obtain ⟨⟨value, hvalue, hbad⟩, hrest⟩ := first
          obtain ⟨later, hlater, hworse⟩ := passed value hbad
          rw [Nat.add_right_comm]
          refine ⟨⟨later, ?_, hworse⟩, ih true hrest⟩
          show (next false >>= f) = .ret later
          rw [hvalue, ret_bind, hlater]

/-- When all its writes are done, the next answers are those behind them. -/
theorem WritesAll.run_of_done {bad : α → Prop} {n : ℕ} {p : Prog A B ε α}
    (h : WritesAll bad n p) {answers : Answers} (disk : A → B)
    (hdone : ∀ j < n, answers.writes j = .done) :
    p.Answered answers disk ∧ (∃ value disk', p.run answers disk = (.ok value, disk')) ∧
      (p.left answers disk).writes 0 = answers.writes n := by
  induction p generalizing n answers disk with
  | ret value =>
      cases n with
      | zero => exact ⟨trivial, ⟨value, disk, rfl⟩, rfl⟩
      | succ n => exact h.elim
  | stop fault => cases n <;> exact h.elim
  | read addr next ih => cases n <;> exact h.elim
  | write addr block next ih =>
      cases n with
      | zero => exact h.elim
      | succ n =>
          have hzero := hdone 0 (Nat.succ_pos n)
          simp only [Answered, run, left, hzero, true_and]
          exact ih true h.2 _ fun j hj => hdone (j + 1) (by omega)

/-- When write `k` is the first to be refused, the next answers are those behind it. -/
theorem WritesAll.run_of_refused {bad : α → Prop} {n k : ℕ} {p : Prog A B ε α}
    (h : WritesAll bad n p) {answers : Answers} (disk : A → B) (hk : k < n)
    (hdone : ∀ j < k, answers.writes j = .done) (hrefused : answers.writes k ≠ .done) :
    ¬ p.Answered answers disk ∧ (∃ value disk', p.run answers disk = (.ok value, disk')) ∧
      (p.left answers disk).writes 0 = answers.writes (k + 1) := by
  induction p generalizing n k answers disk with
  | ret value =>
      cases n with
      | zero => omega
      | succ n => exact h.elim
  | stop fault => cases n <;> exact h.elim
  | read addr next ih => cases n <;> exact h.elim
  | write addr block next ih =>
      cases n with
      | zero => exact h.elim
      | succ n =>
          cases k with
          | zero =>
              obtain ⟨⟨value, hvalue, -⟩, -⟩ := h
              refine ⟨fun h => hrefused h.1, ?_⟩
              cases hwrite : answers.writes 0 with
              | done => exact absurd hwrite hrefused
              | refused =>
                  simp only [run, left, hwrite, hvalue]
                  exact ⟨⟨value, _, rfl⟩, rfl⟩
              | refusedLate =>
                  simp only [run, left, hwrite, hvalue]
                  exact ⟨⟨value, _, rfl⟩, rfl⟩
          | succ k =>
              have hzero := hdone 0 (Nat.succ_pos k)
              simp only [Answered, run, left, hzero, true_and]
              exact ih true h.2 _ (by omega) (fun j hj => hdone (j + 1) (by omega)) hrefused

/-- A program of `n` writes issues `n` writes and reads nothing when it is answered. -/
theorem WritesAll.exec_eq {bad : α → Prop} {n : ℕ} {p : Prog A B ε α} (h : WritesAll bad n p)
    (disk : A → B) : p.readCount disk = 0 ∧ ∃ value writes,
      p.Returns disk value writes ∧ writes.length = n := by
  induction p generalizing n disk with
  | ret value =>
      cases n with
      | zero => exact ⟨rfl, value, [], rfl, rfl⟩
      | succ n => exact h.elim
  | stop fault => cases n <;> exact h.elim
  | read addr next ih => cases n <;> exact h.elim
  | write addr block next ih =>
      cases n with
      | zero => exact h.elim
      | succ n =>
          obtain ⟨hcount, value, writes, hreturns, hlen⟩ :=
            ih true h.2 (Function.update disk addr block)
          refine ⟨hcount, value, (addr, block) :: writes, ?_, by rw [List.length_cons, hlen]⟩
          rw [Returns, exec_write, show (next true).exec _ = _ from hreturns]

end Prog

end MasterOS.Device
