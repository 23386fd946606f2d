/-
# Commands and their arguments

Which command lines make a command read through a null pointer, or copy a string to where
it does not fit. The words that `k_first_word` cuts off always fit. Three commands fail on
arguments they do not check: `create` without a content, `time` without an offset, and
`setprompt` with a name of 32 characters or more.
-/

import MasterOS.Console.Credentials
import MasterOS.Console.Shell
import Mathlib.Data.List.Find

namespace MasterOS.Console

/-! ## Outcomes -/

theorem Outcome.ok_bind {α β : Type} (a : α) (f : α → Outcome β) :
    (Except.ok a >>= f : Outcome β) = f a :=
  rfl

theorem Outcome.error_bind {α β : Type} (stop : Stop) (f : α → Outcome β) :
    (Except.error stop >>= f : Outcome β) = Except.error stop :=
  rfl

theorem Outcome.bind_eq_ok {α β : Type} {o : Outcome α} {f : α → Outcome β} {b : β}
    (h : (o >>= f) = .ok b) : ∃ a, o = .ok a ∧ f a = .ok b := by
  cases o with
  | ok a => exact ⟨a, rfl, h⟩
  | error stop => cases h

/-- A computation comes back, and its result has a property. -/
def Outcome.Gives {α : Type} (o : Outcome α) (P : α → Prop) : Prop := ∃ a, o = .ok a ∧ P a

/-! ## Arrays that hold strings -/

/-- The string in an array that spells a line, which ends early if the line has a NUL. -/
theorem readString_eq {array : CharArray} {a : Chars} {line : List UInt8}
    (hfits : line.length < array.size) (h : Spells a 0 line) :
    readString array a = .ok (line.takeWhile (· ≠ 0)) := by
  have hend : a line.length = 0 := by simpa using h.2
  have hpre : (List.range array.size).map a =
      line ++ 0 :: ((List.range array.size).map a).drop (line.length + 1) := by
    apply List.ext_getElem?
    intro i
    rcases Nat.lt_trichotomy i line.length with hlt | rfl | hgt
    · have hi : i < array.size := hlt.trans hfits
      have hai := h.1 i _ (List.getElem?_eq_getElem hlt)
      rw [Nat.zero_add] at hai
      rw [List.getElem?_append_left hlt, List.getElem?_eq_getElem hlt, List.getElem?_map,
        List.getElem?_range hi, Option.map_some, hai]
    · rw [List.getElem?_append_right le_rfl, Nat.sub_self, List.getElem?_map,
        List.getElem?_range hfits, Option.map_some, hend]
      rfl
    · obtain ⟨k, rfl⟩ := Nat.exists_eq_add_of_lt hgt
      rw [List.getElem?_append_right (by omega), show line.length + k + 1 - line.length = k + 1 by
        omega, List.getElem?_cons_succ, List.getElem?_drop]
      exact congrArg _ (by omega)
  have hstop (l rest : List UInt8) :
      (l ++ 0 :: rest).takeWhile (· ≠ 0) = l.takeWhile (· ≠ 0) := by
    induction l with
    | nil => rfl
    | cons c l ih => rw [List.cons_append, List.takeWhile_cons, List.takeWhile_cons, ih]
  rw [readString, if_pos ⟨line.length, hfits, hend⟩, hpre, hstop]

/-- A line without a NUL is read as it is. -/
theorem readString_of_spells {array : CharArray} {a : Chars} {line : List UInt8}
    (hline : ∀ c ∈ line, c ≠ 0) (hfits : line.length < array.size) (h : Spells a 0 line) :
    readString array a = .ok line := by
  have hall : line.takeWhile (· ≠ 0) = line := by
    apply List.takeWhile_eq_self_iff.mpr
    intro c hc
    exact decide_eq_true (hline c hc)
  rw [readString_eq hfits h, hall]

theorem storeChar_of_lt {array : CharArray} {i : ℕ} (h : i < array.size) (a : Chars)
    (c : UInt8) : storeChar array a i c = .ok (Function.update a i c) :=
  if_pos h

/-- A string and the array that holds it, from some index on. -/
theorem Spells.cons {a : Chars} {i : ℕ} {c : UInt8} {rest : List UInt8} (hc : a i = c)
    (h : Spells a (i + 1) rest) : Spells a i (c :: rest) := by
  constructor
  · intro k d hd
    cases k with
    | zero =>
        obtain rfl : c = d := Option.some.inj hd
        exact hc
    | succ k =>
        rw [← Nat.add_assoc, Nat.add_right_comm]
        exact h.1 k d hd
  · rw [List.length_cons, ← Nat.add_assoc, Nat.add_right_comm]
    exact h.2

theorem spells_nil {a : Chars} {i : ℕ} (h : a i = 0) : Spells a i [] := ⟨nofun, h⟩

/-- A character and the string behind it, from index `i` on. -/
theorem spells_of_update {a dst : Chars} {i : ℕ} {c : UInt8} {rest : List UInt8}
    (hbelow : ∀ j < i + 1, a j = Function.update dst i c j) (h : Spells a (i + 1) rest) :
    (∀ j < i, a j = dst j) ∧ Spells a i (c :: rest) := by
  constructor
  · intro j hj
    rw [hbelow j (Nat.lt_succ_of_lt hj), Function.update_of_ne hj.ne]
  · apply Spells.cons _ h
    rw [hbelow i (Nat.lt_succ_self i), Function.update_self]

/-- The NUL at the end of a string. -/
theorem spells_terminator (dst : Chars) (i : ℕ) :
    (∀ j < i, Function.update dst i 0 j = dst j) ∧ Spells (Function.update dst i 0) i [] :=
  ⟨fun _ hj => Function.update_of_ne hj.ne _ _, spells_nil (Function.update_self _ _ _)⟩

/-- `k_strcpy` of a string that fits. -/
theorem kStrcpyFrom_gives {array : CharArray} {src : List UInt8} {i : ℕ} (dst : Chars)
    (h : i + src.length < array.size) :
    (kStrcpyFrom array src i dst).Gives fun a => (∀ j < i, a j = dst j) ∧ Spells a i src := by
  induction src generalizing i dst with
  | nil => exact ⟨_, storeChar_of_lt h dst 0, spells_terminator dst i⟩
  | cons c rest ih =>
      rw [List.length_cons] at h
      obtain ⟨a, ha, hbelow, hrest⟩ := ih (i := i + 1) (Function.update dst i c) (by omega)
      refine ⟨a, ?_, spells_of_update hbelow hrest⟩
      rw [kStrcpyFrom, storeChar_of_lt (by omega), Outcome.ok_bind, ha]

/-- `k_strcpy` of a string that does not fit. -/
theorem kStrcpyFrom_overrun {array : CharArray} {src : List UInt8} {i : ℕ} (dst : Chars)
    (hi : i ≤ array.size) (h : array.size ≤ i + src.length) :
    kStrcpyFrom array src i dst = .error (.fault (.overrun array)) := by
  induction src generalizing i dst with
  | nil => exact if_neg (Nat.not_lt.mpr h)
  | cons c rest ih =>
      rw [List.length_cons] at h
      rw [kStrcpyFrom]
      by_cases hlt : i < array.size
      · rw [storeChar_of_lt hlt, Outcome.ok_bind]
        exact ih _ hlt (by omega)
      · rw [storeChar, if_neg hlt, Outcome.error_bind]

/-- A copied string is in its array. -/
theorem kStrcpy_gives {array : CharArray} {src : List UInt8} (dst : Chars)
    (hsrc : ∀ c ∈ src, c ≠ 0) (h : src.length < array.size) :
    (kStrcpy array dst src).Gives fun a => Spells a 0 src := by
  obtain ⟨a, ha, _, hspells⟩ := kStrcpyFrom_gives (i := 0) dst (by rwa [Nat.zero_add])
  refine ⟨a, ?_, hspells⟩
  rw [kStrcpy, ha, Outcome.ok_bind, settle, readString_of_spells hsrc h hspells, Outcome.ok_bind]

theorem kStrcpy_overrun {array : CharArray} {src : List UInt8} (dst : Chars)
    (h : array.size ≤ src.length) :
    kStrcpy array dst src = .error (.fault (.overrun array)) := by
  rw [kStrcpy, kStrcpyFrom_overrun dst (Nat.zero_le _) (by rwa [Nat.zero_add]),
    Outcome.error_bind]

/-! ## Words -/

/-- The first word of a string, cut to 31 characters. -/
def cutWord (src : List UInt8) (room : ℕ) : List UInt8 := (src.takeWhile (· ≠ 0x20)).take room

/-- `k_first_word` stops before the last place of the array. -/
theorem kFirstWordFrom_gives {array : CharArray} {n i : ℕ} (src : List UInt8) (dst : Chars)
    (hn : n ≤ array.size) (hi : i < n) :
    (kFirstWordFrom array n src i dst).Gives fun a =>
      (∀ j < i, a j = dst j) ∧ Spells a i (cutWord src (n - 1 - i)) := by
  have hend : storeChar array dst i 0 = .ok (Function.update dst i 0) :=
    storeChar_of_lt (hi.trans_le hn) dst 0
  induction src generalizing i dst with
  | nil =>
      refine ⟨_, hend, ?_⟩
      rw [cutWord, List.takeWhile_nil, List.take_nil]
      exact spells_terminator dst i
  | cons c rest ih =>
      rw [kFirstWordFrom]
      by_cases hc : c ≠ 0x20 ∧ i < n - 1
      · have hnext : i + 1 < n := by omega
        obtain ⟨a, ha, hbelow, hrest⟩ := ih (Function.update dst i c) hnext
          (storeChar_of_lt (hnext.trans_le hn) _ 0)
        refine ⟨a, ?_, ?_⟩
        · rw [if_pos hc, storeChar_of_lt (hi.trans_le hn), Outcome.ok_bind, ha]
        · have hword : cutWord (c :: rest) (n - 1 - i) = c :: cutWord rest (n - 1 - (i + 1)) := by
            rw [cutWord, List.takeWhile_cons_of_pos (by simpa using hc.1),
              show n - 1 - i = n - 1 - (i + 1) + 1 by omega, List.take_succ_cons]
            rfl
          rw [hword]
          exact spells_of_update hbelow hrest
      · refine ⟨_, by rw [if_neg hc]; exact hend, ?_⟩
        have hword : cutWord (c :: rest) (n - 1 - i) = [] := by
          by_cases hspace : c = 0x20
          · rw [cutWord, List.takeWhile_cons_of_neg (by simp [hspace]), List.take_nil]
          · rw [cutWord, show n - 1 - i = 0 from Nat.sub_eq_zero_of_le
              (Nat.not_lt.mp fun hlt => hc ⟨hspace, hlt⟩), List.take_zero]
        rw [hword]
        exact spells_terminator dst i

theorem cutWord_ne_zero {src : List UInt8} (h : ∀ c ∈ src, c ≠ 0) (room : ℕ) :
    ∀ c ∈ cutWord src room, c ≠ 0 := by
  intro c hc
  exact h c (List.takeWhile_subset _ (List.take_subset _ _ hc))

/-- **The words that `k_first_word` cuts off fit, whatever the string.** -/
theorem kFirstWord_gives {array : CharArray} {src : List UInt8} (dst : Chars)
    (hsize : array.size = 32) (hsrc : ∀ c ∈ src, c ≠ 0) :
    (kFirstWord array src dst 32).Gives fun a =>
      Spells a 0 (cutWord src 31) ∧ readString array a = .ok (cutWord src 31) := by
  obtain ⟨a, ha, _, hspells⟩ := kFirstWordFrom_gives (n := 32) (i := 0) src dst hsize.ge
    (by decide)
  have hlength : (cutWord src 31).length < array.size := by
    rw [hsize]
    exact Nat.lt_succ_of_le (List.length_take_le _ _)
  have hread := readString_of_spells (cutWord_ne_zero hsrc 31) hlength hspells
  refine ⟨a, ?_, hspells, hread⟩
  rw [kFirstWord, ha, Outcome.ok_bind, settle, hread, Outcome.ok_bind]

/-- The command that a word names. -/
def commandOf (word : List UInt8) : Option Command :=
  (verbs.find? fun entry => word = text entry.1).map Prod.snd

/-- No verb has a NUL. -/
theorem text_verb_ne_zero : ∀ entry ∈ verbs, ∀ c ∈ text entry.1, c ≠ 0 := by
  have hzero : ∀ entry ∈ verbs, 0 ∉ text entry.1 := by decide +kernel
  intro entry hentry c hc h
  exact hzero entry hentry (h ▸ hc)

/-- The comparisons of `shell_execute` find the command that the word names. -/
theorem findCommand_eq {a : Chars} {word : List UInt8} (hword : ∀ c ∈ word, c ≠ 0)
    (h : Spells a 0 word) : findCommand a = commandOf word := by
  have hcongr (entry : String × Command) (hentry : entry ∈ verbs) :
      decide (kStrcmp a 0 (text entry.1) = 0) = decide (word = text entry.1) :=
    decide_eq_decide.mpr (kStrcmp_eq_zero_iff hword (text_verb_ne_zero entry hentry) h)
  rw [findCommand, commandOf, List.find?_congr hcongr]

/-! ## Faults of a command -/

/-- A computation ends in a fault of some kind. -/
def Outcome.FaultsIn {α : Type} (o : Outcome α) (P : Fault → Prop) : Prop :=
  ∃ f : Fault, o = .error (.fault f) ∧ P f

section

variable {α β : Type} {P : Fault → Prop}

theorem not_faultsIn_ok (a : α) : ¬ Outcome.FaultsIn (.ok a) P := nofun

theorem not_faultsIn_halted : ¬ Outcome.FaultsIn (.error .halted : Outcome α) P := nofun

theorem faultsIn_fault_iff {f : Fault} :
    Outcome.FaultsIn (.error (.fault f) : Outcome α) P ↔ P f := by
  constructor
  · rintro ⟨f', hf, hP⟩
    obtain rfl : f = f' := Stop.fault.inj (Except.error.inj hf)
    exact hP
  · intro hP
    exact ⟨f, rfl, hP⟩

theorem Outcome.Gives.not_faultsIn {o : Outcome α} {Q : α → Prop} (h : o.Gives Q) :
    ¬ o.FaultsIn P := by
  obtain ⟨a, rfl, _⟩ := h
  exact not_faultsIn_ok a

theorem not_faultsIn_bind {o : Outcome α} {f : α → Outcome β} (ho : ¬ o.FaultsIn P)
    (hf : ∀ a, ¬ (f a).FaultsIn P) : ¬ (o >>= f).FaultsIn P := by
  cases o with
  | ok a => exact hf a
  | error stop =>
      rintro ⟨fault, hfault, hP⟩
      obtain rfl : stop = .fault fault := Except.error.inj hfault
      exact ho ⟨fault, rfl, hP⟩

end

section

variable {arg : List UInt8} {P : Fault → Prop} (w : World) (s : Shell)

theorem cmdColor_not_faultsIn (arg : Option (List UInt8)) : ¬ (cmdColor arg s).FaultsIn P := by
  cases arg with
  | none => exact not_faultsIn_ok _
  | some arg =>
      rw [cmdColor, kAtoi, deref, Outcome.ok_bind, Outcome.ok_bind]
      cases kArg arg with
      | none => exact not_faultsIn_ok _
      | some bgStr => exact not_faultsIn_ok _

theorem cmdRen_not_faultsIn (harg : ∀ c ∈ arg, c ≠ 0) :
    ¬ (cmdRen w (some arg) s).FaultsIn P := by
  obtain ⟨a, ha, _, hread⟩ := @kFirstWord_gives .oldName _ w.stack rfl harg
  rw [cmdRen, ha, Outcome.ok_bind]
  cases kArg arg with
  | none => exact not_faultsIn_ok _
  | some newName =>
      dsimp only
      rw [hread, Outcome.ok_bind]
      split_ifs <;> exact not_faultsIn_ok _

theorem cmdCopy_not_faultsIn (harg : ∀ c ∈ arg, c ≠ 0) :
    ¬ (cmdCopy w (some arg) s).FaultsIn P := by
  obtain ⟨a, ha, _, hread⟩ := @kFirstWord_gives .srcName _ w.stack rfl harg
  rw [cmdCopy, ha, Outcome.ok_bind]
  cases kArg arg with
  | none => exact not_faultsIn_ok _
  | some dstName =>
      dsimp only
      rw [hread, Outcome.ok_bind]
      split_ifs <;> exact not_faultsIn_ok _

/-- `create` takes the length of a content that may be missing. -/
theorem cmdCreate_faultsIn_iff (harg : ∀ c ∈ arg, c ≠ 0) :
    (cmdCreate w (some arg) s).FaultsIn P ↔ kArg arg = none ∧ P .nullPointer := by
  obtain ⟨a, ha, _, hread⟩ := @kFirstWord_gives .filename _ w.stack rfl harg
  rw [cmdCreate, ha, Outcome.ok_bind]
  cases hcontext : kArg arg with
  | none => exact faultsIn_fault_iff.trans (and_iff_right rfl).symm
  | some context =>
      dsimp only
      rw [kStrlen, deref, Outcome.ok_bind, Outcome.ok_bind, if_neg nofun, hread, Outcome.ok_bind]
      exact iff_of_false (not_faultsIn_ok s) nofun

/-- `time` reads an offset that may be missing. -/
theorem cmdTime_faultsIn_iff (arg : Option (List UInt8)) :
    (cmdTime w arg s).FaultsIn P ↔ arg = none ∧ P .nullPointer := by
  cases arg with
  | none => exact faultsIn_fault_iff.trans (and_iff_right rfl).symm
  | some arg => exact iff_of_false (not_faultsIn_ok _) nofun

/-- `setprompt` copies a name of any length. -/
theorem cmdSetprompt_faultsIn_iff (harg : ∀ c ∈ arg, c ≠ 0) :
    (cmdSetprompt (some arg) s).FaultsIn P ↔ 32 ≤ arg.length ∧ P (.overrun .promptName) := by
  rw [cmdSetprompt]
  rcases Nat.lt_or_ge arg.length 32 with hlt | hge
  · obtain ⟨a, ha, _⟩ := @kStrcpy_gives .promptName _ s.promptName harg hlt
    rw [ha, Outcome.ok_bind]
    exact iff_of_false (not_faultsIn_ok _) fun h => Nat.not_le.mpr hlt h.1
  · rw [@kStrcpy_overrun .promptName _ s.promptName hge, Outcome.error_bind]
    exact faultsIn_fault_iff.trans (and_iff_right hge).symm

end

theorem kArg_subset {line arg : List UInt8} (h : kArg line = some arg) : arg ⊆ line := by
  induction line with
  | nil => cases h
  | cons c rest ih =>
      rw [kArg] at h
      by_cases hc : c = 0x20
      · rw [if_pos hc] at h
        split_ifs at h
        obtain rfl := Option.some.inj h
        exact List.subset_cons_self c rest
      · rw [if_neg hc] at h
        exact List.Subset.trans (ih h) (List.subset_cons_self c rest)

/-- The line makes the command fault, and with which fault. -/
def Command.FaultsOn (command : Command) (line : List UInt8) (f : Fault) : Prop :=
  match command with
  | .create => (∃ arg, kArg line = some arg ∧ kArg arg = none) ∧ f = .nullPointer
  | .time => kArg line = none ∧ f = .nullPointer
  | .setprompt => (∃ arg, kArg line = some arg ∧ 32 ≤ arg.length) ∧ f = .overrun .promptName
  | _ => False

/-- A command other than `history`, by its case. -/
theorem Command.exec_faultsIn_iff {line : List UInt8} (hline : ∀ c ∈ line, c ≠ 0)
    {P : Fault → Prop} {command : Command} (hcommand : command ≠ .history) (w : World)
    (s : Shell) :
    (command.exec w (kArg line) s).FaultsIn P ↔ ∃ f, command.FaultsOn line f ∧ P f := by
  have harg {arg : List UInt8} (h : kArg line = some arg) : ∀ c ∈ arg, c ≠ 0 :=
    fun c hc => hline c (kArg_subset h hc)
  have hnever {o : Outcome Shell} (ho : ¬ o.FaultsIn P) : o.FaultsIn P ↔ ∃ f, False ∧ P f :=
    iff_of_false ho fun ⟨_, h, _⟩ => h
  have hfault {Q : Prop} {f : Fault} : Q ∧ P f ↔ ∃ f', (Q ∧ f' = f) ∧ P f' :=
    ⟨fun h => ⟨f, ⟨h.1, rfl⟩, h.2⟩, fun ⟨_, h, hP⟩ => ⟨h.1, h.2 ▸ hP⟩⟩
  have hsome {arg : List UInt8} {Q : List UInt8 → Prop} (h : kArg line = some arg) :
      (∃ arg', kArg line = some arg' ∧ Q arg') ↔ Q arg := by
    rw [h]
    exact ⟨fun ⟨_, heq, hQ⟩ => Option.some.inj heq ▸ hQ, fun hQ => ⟨arg, rfl, hQ⟩⟩
  cases command with
  | history => exact absurd rfl hcommand
  | create =>
      refine Iff.trans ?_ hfault
      show (cmdCreate w (kArg line) s).FaultsIn P ↔ _
      cases h : kArg line with
      | none => exact iff_of_false (not_faultsIn_ok _) nofun
      | some arg => rw [← h, hsome h, h, cmdCreate_faultsIn_iff w s (harg h)]
  | time => exact (cmdTime_faultsIn_iff w s (kArg line)).trans hfault
  | setprompt =>
      refine Iff.trans ?_ hfault
      show (cmdSetprompt (kArg line) s).FaultsIn P ↔ _
      cases h : kArg line with
      | none => exact iff_of_false (not_faultsIn_ok _) nofun
      | some arg => rw [← h, hsome h, h, cmdSetprompt_faultsIn_iff s (harg h)]
  | ren =>
      apply hnever
      show ¬ (cmdRen w (kArg line) s).FaultsIn P
      cases h : kArg line with
      | none => exact not_faultsIn_ok _
      | some arg => exact cmdRen_not_faultsIn w s (harg h)
  | copy =>
      apply hnever
      show ¬ (cmdCopy w (kArg line) s).FaultsIn P
      cases h : kArg line with
      | none => exact not_faultsIn_ok _
      | some arg => exact cmdCopy_not_faultsIn w s (harg h)
  | color => exact hnever (cmdColor_not_faultsIn s (kArg line))
  | halt => exact hnever not_faultsIn_halted
  | _ => exact hnever (not_faultsIn_ok _)

/-- What `shell_execute` faults with is what its command faults with. -/
theorem shellExecute_faultsIn_iff {line : List UInt8} (hline : ∀ c ∈ line, c ≠ 0)
    {P : Fault → Prop} (w : World) (s : Shell) :
    (shellExecute w line s).FaultsIn P ↔ ∃ command, commandOf (cutWord line 31) = some command ∧
      (command.exec w (kArg line) s).FaultsIn P := by
  by_cases hempty : line = []
  · have hnone : commandOf (cutWord [] 31) = none := by decide
    rw [hempty, hnone]
    exact iff_of_false (not_faultsIn_ok s) nofun
  · obtain ⟨verb, hverb, hspells, hread⟩ := @kFirstWord_gives .verb _ w.stack rfl hline
    rw [shellExecute, if_neg hempty, hverb, Outcome.ok_bind]
    dsimp only
    rw [findCommand_eq (cutWord_ne_zero hline 31) hspells]
    cases commandOf (cutWord line 31) with
    | none =>
        dsimp only
        rw [hread, Outcome.ok_bind]
        exact iff_of_false (not_faultsIn_ok _) nofun
    | some command =>
        exact ⟨fun h => ⟨command, rfl, h⟩, fun ⟨_, heq, h⟩ => Option.some.inj heq ▸ h⟩

/-! ## Broken buffers -/

/-- The arrays that commands fill from their arguments. -/
def CharArray.OfCommand : CharArray → Prop
  | .shellBuf => False
  | .historyRow => False
  | _ => True

/-- A read through a null pointer, or an array of a command that a copy runs out of or leaves
without a NUL. -/
def Fault.OfCommand : Fault → Prop
  | .nullPointer => True
  | .overrun array => array.OfCommand
  | .unterminated array => array.OfCommand
  | .historyIndex _ => False

/-- Reading the history breaks no array of a command. -/
theorem History.get_not_breaks (h : History) (i : ℕ) : ¬ (h.get i).FaultsIn Fault.OfCommand := by
  apply not_faultsIn_bind
  · unfold historyAt
    split_ifs
    · exact not_faultsIn_ok i
    · exact fun h => faultsIn_fault_iff.mp h
  · intro i
    unfold readString
    split_ifs
    · exact not_faultsIn_ok _
    · exact fun h => faultsIn_fault_iff.mp h

theorem historyRows_not_breaks (n x : ℕ) (s : Shell) :
    ¬ (historyRows n x s).FaultsIn Fault.OfCommand := by
  induction n generalizing x s with
  | zero => exact not_faultsIn_ok s
  | succ n ih =>
      rw [historyRows]
      exact not_faultsIn_bind (s.history.get_not_breaks x) fun row => ih _ _

theorem cmdHistory_not_breaks (s : Shell) : ¬ (cmdHistory s).FaultsIn Fault.OfCommand := by
  unfold cmdHistory
  split_ifs
  · exact not_faultsIn_ok _
  · exact historyRows_not_breaks _ _ s

/-- A command line that makes its command break something. -/
def BreakingLine (line : List UInt8) : Prop :=
  match commandOf (cutWord line 31) with
  | some .create => ∃ arg, kArg line = some arg ∧ kArg arg = none
  | some .time => kArg line = none
  | some .setprompt => ∃ arg, kArg line = some arg ∧ 32 ≤ arg.length
  | _ => False

/-- **Which command lines break a buffer or read through a null pointer.** The state of the
shell and the answers of the file system play no part. -/
theorem shellExecute_breaks_iff (w : World) (s : Shell) (line : List UInt8)
    (hline : ∀ c ∈ line, c ≠ 0) :
    (shellExecute w line s).FaultsIn Fault.OfCommand ↔ BreakingLine line := by
  have hfaults (command : Command) : (∃ f, command.FaultsOn line f ∧ f.OfCommand) ↔
      ∃ f, command.FaultsOn line f := by
    refine ⟨fun ⟨f, h, _⟩ => ⟨f, h⟩, fun ⟨f, h⟩ => ⟨f, h, ?_⟩⟩
    cases command with
    | create => exact h.2 ▸ trivial
    | time => exact h.2 ▸ trivial
    | setprompt => exact h.2 ▸ trivial
    | _ => exact h.elim
  rw [shellExecute_faultsIn_iff hline, BreakingLine]
  cases hcommand : commandOf (cutWord line 31) with
  | none => exact iff_of_false nofun id
  | some command =>
      have hthis (Q : Command → Prop) : (∃ c, some command = some c ∧ Q c) ↔ Q command :=
        ⟨fun ⟨_, heq, hQ⟩ => Option.some.inj heq ▸ hQ, fun hQ => ⟨command, rfl, hQ⟩⟩
      rw [hthis]
      by_cases hhistory : command = .history
      · subst hhistory
        exact iff_of_false (cmdHistory_not_breaks s) id
      · rw [Command.exec_faultsIn_iff hline hhistory, hfaults]
        cases command <;> simp [Command.FaultsOn]

/-- A system that answers every question with failure. -/
def failingWorld : World where
  stack _ := 0xFF
  totalMemKb := 0
  currentPath := []
  fatList _ := (-1, fun _ => ⟨[], 0, 0, 0⟩)
  fatRead _ := (-1, fun _ => 0)
  fatWrite _ := -1
  fatDelete _ := -1
  fatRename _ _ := -1
  fatCd _ := -1
  fatMkdir _ := -1
  fatRmdir _ := -1
  fatGetTotalKb := 0
  fatGetUsedKb := 0
  rtcRead := ⟨0, 0, 0, 0, 0⟩
  vendor := []
  uptime := 0
  execRun _ screen := screen

/-- The shell on a cleared screen. -/
def freshShell : Shell := Shell.start (Screen.boot fun _ => 0)

/-- `time` alone, `create` with a name alone, and `setprompt` with 32 characters. -/
theorem shellExecute_breaks :
    (shellExecute failingWorld (text "time") freshShell).FaultsIn Fault.OfCommand ∧
      (shellExecute failingWorld (text "create x") freshShell).FaultsIn Fault.OfCommand ∧
      (shellExecute failingWorld (text "setprompt 0123456789abcdef0123456789abcdef")
        freshShell).FaultsIn Fault.OfCommand :=
  ⟨⟨.nullPointer, rfl, trivial⟩, ⟨.nullPointer, rfl, trivial⟩,
    ⟨.overrun .promptName, rfl, trivial⟩⟩

/-- `echo` with an argument of its own breaks nothing. -/
theorem shellExecute_echo :
    ¬ (shellExecute failingWorld (text "echo hi") freshShell).FaultsIn Fault.OfCommand := by
  have hecho : commandOf (cutWord (text "echo hi") 31) = some .echo := by decide
  have hzero : 0 ∉ text "echo hi" := by decide
  have hline : ∀ c ∈ text "echo hi", c ≠ 0 := fun c hc h => hzero (h ▸ hc)
  rw [shellExecute_breaks_iff failingWorld freshShell (text "echo hi") hline, BreakingLine, hecho]
  nofun

end MasterOS.Console
