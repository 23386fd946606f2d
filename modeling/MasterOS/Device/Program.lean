/-
# Programs over a block device

A driver talks to its device one block at a time and goes on with the answer.
Such a program is a tree: a leaf returns a value or stops on a fault, an inner
node reads or writes one block and continues with what the device answered.

Two readings of a program are given. `exec` is the run in which the device
answers every access, and it keeps the list of writes in the order they were
issued; the disk at the end is that list applied to the disk at the start. `run`
takes a list of answers, in which any access may be refused. A device that goes
away after `k` writes is one such list, and the disk it leaves is the first `k`
writes of `exec` applied to the disk at the start.
-/

import Mathlib.Logic.Function.Basic
import Mathlib.Data.List.Basic

namespace MasterOS.Device

/-- A program over a device with addresses `A` and blocks `B`, which may stop on
a fault of type `ε` or return a value of type `α`. -/
inductive Prog (A B ε α : Type) : Type
  | ret (value : α)
  | stop (fault : ε)
  | read (addr : A) (next : Option B → Prog A B ε α)
  | write (addr : A) (block : B) (next : Bool → Prog A B ε α)

namespace Prog

variable {A B ε α β : Type}

/-- Run the second program on the value the first one returns. -/
def bind : Prog A B ε α → (α → Prog A B ε β) → Prog A B ε β
  | .ret value, f => f value
  | .stop fault, _ => .stop fault
  | .read addr next, f => .read addr fun answer => bind (next answer) f
  | .write addr block next, f => .write addr block fun answer => bind (next answer) f

instance : Monad (Prog A B ε) where
  pure := .ret
  bind := bind

@[simp]
theorem pure_eq_ret (value : α) : (pure value : Prog A B ε α) = .ret value := rfl

@[simp]
theorem ret_bind (value : α) (f : α → Prog A B ε β) : (ret value >>= f) = f value := rfl

@[simp]
theorem stop_bind (fault : ε) (f : α → Prog A B ε β) :
    ((stop fault : Prog A B ε α) >>= f) = .stop fault := rfl

@[simp]
theorem read_bind (addr : A) (next : Option B → Prog A B ε α) (f : α → Prog A B ε β) :
    (read addr next >>= f) = .read addr fun answer => next answer >>= f := rfl

@[simp]
theorem write_bind (addr : A) (block : B) (next : Bool → Prog A B ε α)
    (f : α → Prog A B ε β) :
    (write addr block next >>= f) = .write addr block fun answer => next answer >>= f := rfl

theorem bind_assoc {γ : Type} (p : Prog A B ε α) (f : α → Prog A B ε β) (g : β → Prog A B ε γ) :
    p >>= f >>= g = p >>= fun value => f value >>= g := by
  induction p with
  | ret value => rfl
  | stop fault => rfl
  | read addr next ih => exact congrArg (read addr) (funext ih)
  | write addr block next ih => exact congrArg (write addr block) (funext ih)

/-- Whatever the device answers and whatever it holds, a value that is returned
satisfies `P`. -/
def Always (P : α → Prop) : Prog A B ε α → Prop
  | .ret value => P value
  | .stop _ => True
  | .read _ next => ∀ answer, Always P (next answer)
  | .write _ _ next => ∀ answer, Always P (next answer)

/-- The sequencing rule for `Always`. -/
theorem Always.bind {P : α → Prop} {Q : β → Prop} {p : Prog A B ε α}
    {f : α → Prog A B ε β} (first : Always P p) (second : ∀ value, P value → Always Q (f value)) :
    Always Q (p >>= f) := by
  induction p with
  | ret value => exact second value first
  | stop fault => trivial
  | read addr next ih => exact fun answer => ih answer (first answer)
  | write addr block next ih => exact fun answer => ih answer (first answer)

/-- A weaker property of the value is always returned as well. -/
theorem Always.mono {P Q : α → Prop} {p : Prog A B ε α} (holds : Always P p)
    (weaker : ∀ value, P value → Q value) : Always Q p := by
  induction p with
  | ret value => exact weaker value holds
  | stop fault => trivial
  | read addr next ih => exact fun answer => ih answer (holds answer)
  | write addr block next ih => exact fun answer => ih answer (holds answer)

/-- The property that says nothing is always returned. -/
theorem always_trivial (p : Prog A B ε α) : Always (fun _ => True) p := by
  induction p with
  | ret | stop => trivial
  | read addr next ih => exact ih
  | write addr block next ih => exact ih

end Prog

/-! ## The disk -/

section Disk

variable {A B : Type} [DecidableEq A]

/-- Apply a list of writes, first write first. -/
def applyWrites : List (A × B) → (A → B) → (A → B)
  | [], disk => disk
  | (addr, block) :: rest, disk => applyWrites rest (Function.update disk addr block)

@[simp]
theorem applyWrites_nil (disk : A → B) : applyWrites [] disk = disk := rfl

@[simp]
theorem applyWrites_cons (addr : A) (block : B) (rest : List (A × B)) (disk : A → B) :
    applyWrites ((addr, block) :: rest) disk =
      applyWrites rest (Function.update disk addr block) := rfl

theorem applyWrites_append (first second : List (A × B)) (disk : A → B) :
    applyWrites (first ++ second) disk = applyWrites second (applyWrites first disk) := by
  induction first generalizing disk with
  | nil => rfl
  | cons head rest ih => exact ih _

/-- A block that no write addresses keeps its content. -/
theorem applyWrites_of_forall_ne {writes : List (A × B)} {disk : A → B} {addr : A}
    (other : ∀ entry ∈ writes, entry.1 ≠ addr) : applyWrites writes disk addr = disk addr := by
  induction writes generalizing disk with
  | nil => rfl
  | cons head rest ih =>
      have hhead : addr ≠ head.1 := (other head List.mem_cons_self).symm
      have hrest : applyWrites rest (Function.update disk head.1 head.2) addr =
          Function.update disk head.1 head.2 addr :=
        ih fun entry hentry => other entry (List.mem_cons_of_mem _ hentry)
      rw [applyWrites_cons, hrest, Function.update_of_ne hhead]

/-- If every write to an address carries the same block, and there is one, the
address holds that block afterwards. -/
theorem applyWrites_of_mem {writes : List (A × B)} {disk : A → B} {addr : A} {block : B}
    (present : (addr, block) ∈ writes)
    (same : ∀ entry ∈ writes, entry.1 = addr → entry.2 = block) :
    applyWrites writes disk addr = block := by
  induction writes generalizing disk with
  | nil => simp at present
  | cons head rest ih =>
      have hrest : ∀ entry ∈ rest, entry.1 = addr → entry.2 = block := fun entry hentry =>
        same entry (List.mem_cons_of_mem _ hentry)
      by_cases hlater : (addr, block) ∈ rest
      · exact ih hlater hrest
      · have hhead : (addr, block) = head := by
          rcases List.mem_cons.mp present with h | h
          · exact h
          · exact absurd h hlater
        have hother : ∀ entry ∈ rest, entry.1 ≠ addr := by
          intro entry hentry haddr
          have hblock := hrest entry hentry haddr
          exact hlater (by rw [← haddr, ← hblock]; exact hentry)
        subst hhead
        rw [applyWrites_cons, applyWrites_of_forall_ne hother, Function.update_self]

/-- Writing back what is there changes nothing. -/
theorem applyWrites_of_same {writes : List (A × B)} {disk : A → B}
    (same : ∀ entry ∈ writes, disk entry.1 = entry.2) : applyWrites writes disk = disk := by
  induction writes with
  | nil => rfl
  | cons head rest ih =>
      have hhead : Function.update disk head.1 head.2 = disk := by
        rw [← same head List.mem_cons_self, Function.update_eq_self]
      rw [applyWrites_cons, hhead]
      exact ih fun entry hentry => same entry (List.mem_cons_of_mem _ hentry)

/-- A block holds what it held, or what one of the writes put there. -/
theorem applyWrites_eq_or (writes : List (A × B)) (disk : A → B) (addr : A) :
    applyWrites writes disk addr = disk addr ∨
      ∃ entry ∈ writes, entry.1 = addr ∧ applyWrites writes disk addr = entry.2 := by
  induction writes generalizing disk with
  | nil => exact Or.inl rfl
  | cons head rest ih =>
      rw [applyWrites_cons]
      rcases ih (Function.update disk head.1 head.2) with hsame | ⟨entry, hentry, haddr, hblock⟩
      · by_cases hhead : addr = head.1
        · refine Or.inr ⟨head, List.mem_cons_self, hhead.symm, ?_⟩
          rw [hsame, hhead, Function.update_self]
        · rw [hsame, Function.update_of_ne hhead]
          exact Or.inl rfl
      · exact Or.inr ⟨entry, List.mem_cons_of_mem _ hentry, haddr, hblock⟩

/-- What a block holds after some writes depends on what it held. -/
theorem applyWrites_congr (writes : List (A × B)) {disk disk' : A → B} {addr : A}
    (h : disk addr = disk' addr) : applyWrites writes disk addr = applyWrites writes disk' addr := by
  induction writes generalizing disk disk' with
  | nil => exact h
  | cons head rest ih =>
      refine ih ?_
      by_cases haddr : addr = head.1
      · rw [haddr, Function.update_self, Function.update_self]
      · rw [Function.update_of_ne haddr, Function.update_of_ne haddr, h]

end Disk

/-- A part of two lists of writes is a part of the first, or all of it and a part of the
second. -/
theorem take_append_cases {α : Type} (first second : List α) (k : ℕ) :
    (first ++ second).take k = first.take k ∨
      ∃ j, (first ++ second).take k = first ++ second.take j := by
  rw [List.take_append]
  rcases Nat.le_total k first.length with hle | hle
  · left
    rw [Nat.sub_eq_zero_of_le hle, List.take_zero, List.append_nil]
  · right
    exact ⟨k - first.length, by rw [List.take_of_length_le hle]⟩

/-- A part of a list with one element behind it is a part of the list, or everything. -/
theorem take_append_singleton_cases {α : Type} (first : List α) (last : α) (k : ℕ) :
    (first ++ [last]).take k = first.take k ∨ (first ++ [last]).take k = first ++ [last] := by
  rcases Nat.lt_or_ge first.length k with hlt | hle
  · right
    apply List.take_of_length_le
    rw [List.length_append, List.length_singleton]
    omega
  · exact Or.inl (List.take_append_of_le_length hle)

/-! ## The run in which every access is answered -/

namespace Prog

variable {A B ε α β : Type} [DecidableEq A]

/-- The result of a run in which the device answers every access, with the
writes it issued in order. The writes before a fault are kept. -/
def exec : Prog A B ε α → (A → B) → Except ε α × List (A × B)
  | .ret value, _ => (.ok value, [])
  | .stop fault, _ => (.error fault, [])
  | .read addr next, disk => exec (next (some (disk addr))) disk
  | .write addr block next, disk =>
      let later := exec (next true) (Function.update disk addr block)
      (later.1, (addr, block) :: later.2)

/-- The program returns `value` and issues `writes` when every access is answered. -/
def Returns (p : Prog A B ε α) (disk : A → B) (value : α) (writes : List (A × B)) : Prop :=
  p.exec disk = (.ok value, writes)

@[simp]
theorem exec_ret (value : α) (disk : A → B) :
    (ret value : Prog A B ε α).exec disk = (.ok value, []) := rfl

@[simp]
theorem exec_stop (fault : ε) (disk : A → B) :
    (stop fault : Prog A B ε α).exec disk = (.error fault, []) := rfl

@[simp]
theorem exec_read (addr : A) (next : Option B → Prog A B ε α) (disk : A → B) :
    (read addr next).exec disk = (next (some (disk addr))).exec disk := rfl

theorem exec_write (addr : A) (block : B) (next : Bool → Prog A B ε α) (disk : A → B) :
    (write addr block next).exec disk =
      (((next true).exec (Function.update disk addr block)).1,
        (addr, block) :: ((next true).exec (Function.update disk addr block)).2) := rfl

/-- Sequencing runs the second program on the disk the first one left. -/
theorem exec_bind (p : Prog A B ε α) (f : α → Prog A B ε β) (disk : A → B) :
    (p >>= f).exec disk =
      match p.exec disk with
      | (.ok value, writes) =>
          (((f value).exec (applyWrites writes disk)).1,
            writes ++ ((f value).exec (applyWrites writes disk)).2)
      | (.error fault, writes) => (.error fault, writes) := by
  induction p generalizing disk with
  | ret value => rfl
  | stop fault => rfl
  | read addr next ih => exact ih _ _
  | write addr block next ih =>
      rw [write_bind, exec_write, exec_write, ih]
      rcases (next true).exec (Function.update disk addr block) with ⟨fault | value, writes⟩ <;> rfl

/-- After a first program that returns, the run goes on with its value. -/
theorem Returns.exec_bind {p : Prog A B ε α} {disk : A → B} {value : α}
    {writes : List (A × B)} (h : p.Returns disk value writes) (f : α → Prog A B ε β) :
    (p >>= f).exec disk =
      (((f value).exec (applyWrites writes disk)).1,
        writes ++ ((f value).exec (applyWrites writes disk)).2) := by
  rw [Prog.exec_bind, show p.exec disk = (.ok value, writes) from h]

/-- The sequencing rule: a returning sequence is two returning programs. -/
theorem returns_bind_iff {p : Prog A B ε α} {f : α → Prog A B ε β} {disk : A → B}
    {result : β} {writes : List (A × B)} :
    (p >>= f).Returns disk result writes ↔
      ∃ value first second, p.Returns disk value first ∧
        (f value).Returns (applyWrites first disk) result second ∧ writes = first ++ second := by
  unfold Returns
  rw [exec_bind]
  rcases p.exec disk with ⟨fault | value, first⟩
  · simp
  · constructor
    · intro h
      injection h with hresult hwrites
      exact ⟨value, first, _, rfl, Prod.ext hresult rfl, hwrites.symm⟩
    · rintro ⟨value', first', second, hp, hf, rfl⟩
      injection hp with hvalue hfirst
      injection hvalue with hvalue
      subst hvalue hfirst
      simp only [hf]

theorem Returns.bind {p : Prog A B ε α} {f : α → Prog A B ε β} {disk : A → B} {value : α}
    {result : β} {first second : List (A × B)} (hp : p.Returns disk value first)
    (hf : (f value).Returns (applyWrites first disk) result second) :
    (p >>= f).Returns disk result (first ++ second) :=
  returns_bind_iff.mpr ⟨value, first, second, hp, hf, rfl⟩

/-- Sequencing after a program that writes nothing. -/
theorem Returns.bind_nil {p : Prog A B ε α} {f : α → Prog A B ε β} {disk : A → B} {value : α}
    {result : β} {writes : List (A × B)} (hp : p.Returns disk value [])
    (hf : (f value).Returns disk result writes) : (p >>= f).Returns disk result writes :=
  hp.bind hf

/-- Sequencing before a program that only returns. -/
theorem Returns.bind_ret {p : Prog A B ε α} {f : α → Prog A B ε β} {disk : A → B} {value : α}
    {result : β} {writes : List (A × B)} (hp : p.Returns disk value writes)
    (hf : f value = .ret result) : (p >>= f).Returns disk result writes := by
  have hboth : (p >>= f).Returns disk result (writes ++ []) := hp.bind (by rw [hf]; rfl)
  rwa [List.append_nil] at hboth

/-- A run has one outcome. -/
theorem Returns.unique {p : Prog A B ε α} {disk : A → B} {value value' : α}
    {writes writes' : List (A × B)} (h : p.Returns disk value writes)
    (h' : p.Returns disk value' writes') : value = value' ∧ writes = writes' := by
  have heq : ((.ok value : Except ε α), writes) = (.ok value', writes') := h.symm.trans h'
  injection heq with hvalue hwrites
  injection hvalue with hvalue
  exact ⟨hvalue, hwrites⟩

theorem Always.of_returns {P : α → Prop} {p : Prog A B ε α} (holds : Always P p)
    {disk : A → B} {value : α} {writes : List (A × B)} (h : p.Returns disk value writes) :
    P value := by
  induction p generalizing disk writes with
  | ret value' =>
      injection h with hvalue
      injection hvalue with hvalue
      exact hvalue ▸ holds
  | stop fault => injection h with hvalue; injection hvalue
  | read addr next ih => exact ih _ (holds _) h
  | write addr block next ih =>
      have hresult : ((next true).exec (Function.update disk addr block)).1 = .ok value := by
        rw [Returns, exec_write] at h
        exact congrArg Prod.fst h
      exact ih true (holds true) (Prod.ext hresult rfl)

/-- `q` returns whatever `p` returns, with the same writes. A loop with more fuel
extends the loop with less. -/
def Extends (p q : Prog A B ε α) : Prop :=
  ∀ disk value writes, p.Returns disk value writes → q.Returns disk value writes

theorem Extends.refl (p : Prog A B ε α) : p.Extends p := fun _ _ _ h => h

theorem Extends.trans {p q r : Prog A B ε α} (hpq : p.Extends q) (hqr : q.Extends r) :
    p.Extends r := fun disk value writes h => hqr disk value writes (hpq disk value writes h)

theorem stop_extends (fault : ε) (q : Prog A B ε α) : (stop fault : Prog A B ε α).Extends q := by
  intro disk value writes h
  injection h with h
  injection h

theorem Extends.bind {p q : Prog A B ε α} {f g : α → Prog A B ε β} (hpq : p.Extends q)
    (hfg : ∀ value, (f value).Extends (g value)) : (p >>= f).Extends (q >>= g) := by
  intro disk result writes h
  obtain ⟨value, first, second, hp, hf, rfl⟩ := returns_bind_iff.mp h
  exact (hpq disk value first hp).bind (hfg value _ result second hf)

theorem extends_ite {c : Prop} [Decidable c] {p q p' q' : Prog A B ε α} (hp : c → p.Extends p')
    (hq : ¬ c → q.Extends q') : (if c then p else q).Extends (if c then p' else q') := by
  by_cases hc : c
  · rw [if_pos hc, if_pos hc]
    exact hp hc
  · rw [if_neg hc, if_neg hc]
    exact hq hc

/-- If one more unit of fuel always extends a program, any more does. -/
theorem extends_of_le {p : ℕ → Prog A B ε α} (step : ∀ n, (p n).Extends (p (n + 1))) {n n' : ℕ}
    (h : n ≤ n') : (p n).Extends (p n') := by
  induction h with
  | refl => exact .refl _
  | step _ ih => exact ih.trans (step _)

end Prog

/-! ## Runs in which the device may refuse -/

/-- The answer to one write. A refused write may still have reached the medium,
as when the device goes silent after it took the data. -/
inductive WriteAnswer
  | done
  | refused
  | refusedLate
  deriving DecidableEq

/-- The answers of a device: whether its `n`-th read succeeds, and what becomes
of its `n`-th write. -/
structure Answers where
  reads : ℕ → Bool
  writes : ℕ → WriteAnswer

namespace Answers

/-- The answers left after one read. -/
def afterRead (answers : Answers) : Answers :=
  { answers with reads := fun n => answers.reads (n + 1) }

/-- The answers left after one write. -/
def afterWrite (answers : Answers) : Answers :=
  { answers with writes := fun n => answers.writes (n + 1) }

/-- Every read succeeds, the first `k` writes are done and every later one is
refused: the device is cut off after `k` writes. -/
def cutAfter (k : ℕ) : Answers where
  reads _ := true
  writes n := if n < k then .done else .refused

@[simp]
theorem cutAfter_afterRead (k : ℕ) : (cutAfter k).afterRead = cutAfter k := rfl

@[simp]
theorem cutAfter_succ_afterWrite (k : ℕ) : (cutAfter (k + 1)).afterWrite = cutAfter k := by
  simp [cutAfter, afterWrite]

@[simp]
theorem cutAfter_zero_afterWrite : (cutAfter 0).afterWrite = cutAfter 0 := rfl

end Answers

namespace Prog

variable {A B ε α : Type} [DecidableEq A]

/-- Run against a list of answers: the result and the disk at the end. -/
def run : Prog A B ε α → Answers → (A → B) → Except ε α × (A → B)
  | .ret value, _, disk => (.ok value, disk)
  | .stop fault, _, disk => (.error fault, disk)
  | .read addr next, answers, disk =>
      run (next (if answers.reads 0 then some (disk addr) else none)) answers.afterRead disk
  | .write addr block next, answers, disk =>
      match answers.writes 0 with
      | .done => run (next true) answers.afterWrite (Function.update disk addr block)
      | .refused => run (next false) answers.afterWrite disk
      | .refusedLate => run (next false) answers.afterWrite (Function.update disk addr block)

/-- What is always returned is returned under every list of answers. -/
theorem Always.of_run {P : α → Prop} {p : Prog A B ε α} (holds : Always P p)
    {answers : Answers} {disk : A → B} {value : α}
    (h : (p.run answers disk).1 = .ok value) : P value := by
  induction p generalizing answers disk with
  | ret value' => injection h with hvalue; exact hvalue ▸ holds
  | stop fault => injection h
  | read addr next ih => exact ih _ (holds _) h
  | write addr block next ih =>
      unfold run at h
      split at h
      · exact ih _ (holds _) h
      · exact ih _ (holds _) h
      · exact ih _ (holds _) h

/-- A device that refuses every write keeps its disk. -/
theorem run_cutAfter_zero (p : Prog A B ε α) (disk : A → B) :
    (p.run (.cutAfter 0) disk).2 = disk := by
  induction p with
  | ret | stop => rfl
  | read addr next ih => exact ih _
  | write addr block next ih => exact ih false

/-- **A cut leaves a prefix of the writes.** When the device is cut off after `k`
writes, the disk holds the first `k` writes of the uninterrupted run and nothing
else, whatever the program does about the refusals. -/
theorem run_cutAfter (p : Prog A B ε α) (k : ℕ) (disk : A → B) :
    (p.run (.cutAfter k) disk).2 = applyWrites ((p.exec disk).2.take k) disk := by
  induction p generalizing k disk with
  | ret | stop => simp [run]
  | read addr next ih => exact ih _ k disk
  | write addr block next ih =>
      cases k with
      | zero => rw [run_cutAfter_zero, List.take_zero, applyWrites_nil]
      | succ k =>
          have hstep : (write addr block next).run (.cutAfter (k + 1)) disk =
              (next true).run (.cutAfter k) (Function.update disk addr block) := by
            have hdone : (Answers.cutAfter (k + 1)).writes 0 = .done := by
              simp [Answers.cutAfter]
            rw [run, hdone]
            simp only [Answers.cutAfter_succ_afterWrite]
          rw [hstep, ih true k, exec_write, List.take_succ_cons, applyWrites_cons]

end Prog

end MasterOS.Device
