/-
# The login screen

`login` and the part of `kmain` behind it as a machine. Its events are the steps of the
main loop and the interrupts of the keyboard, in any order; an interrupt runs the installed
handler to completion. A store past `input_buf[32]` is a fault.

Beside the machine stands a record of what was typed. It is kept from the keys and the
installed handlers alone and never looks at the buffer, so that what the code compares can
be held against what was submitted.
-/

import MasterOS.Console.Keyboard
import MasterOS.Math.Machine
import Mathlib.Data.Int.Notation
import Mathlib.Logic.Function.Basic

namespace MasterOS.Console

open MasterOS.Math

/-! ## The machine -/

/-- `MAX_INPUT`. -/
def maxInput : ℤ := 32

/-- `MAX_ATTEMPTS`. -/
def maxAttempts : ℕ := 3

/-- `VALID_USER`: gtaha. -/
def validUser : List UInt8 := [0x67, 0x74, 0x61, 0x68, 0x61]

/-- `VALID_PASS`: 135. -/
def validPass : List UInt8 := [0x31, 0x33, 0x35]

/-- The character handlers that are ever installed. -/
inductive Handler
  | loginHandleChar | loginHandlePass | shellHandleChar
  deriving DecidableEq

/-- The two entries of an attempt: `read_input` and `read_password`. -/
inductive Field
  | user | pass
  deriving DecidableEq

/-- The handler an entry installs. -/
def Field.handler : Field → Handler
  | .user => .loginHandleChar
  | .pass => .loginHandlePass

/-- What an entry is compared with. -/
def Field.valid : Field → List UInt8
  | .user => validUser
  | .pass => validPass

/-- Where the main loop stands: before the statement named. -/
inductive Pc
  | head
  | clearLen (field : Field)
  | clearDone (field : Field)
  | install (field : Field)
  | poll (field : Field)
  | remove (field : Field)
  | compare (field : Field)
  | locked
  | returned
  | shell
  deriving DecidableEq

/-- The statics of the keyboard and of the login screen, the variable of `login`, and the
place of the main loop. -/
structure Login where
  mods : Modifiers
  charHandler : Option Handler
  inputBuf : ℕ → UInt8
  inputLen : ℤ
  inputDone : Bool
  attempts : ℕ
  pc : Pc

/-- The state in which `kmain` calls `login`. Keys may have come before, but no handler was
installed. -/
def Login.start (mods : Modifiers) : Login where
  mods := mods
  charHandler := none
  inputBuf _ := 0
  inputLen := 0
  inputDone := false
  attempts := 0
  pc := .head

/-- `input_buf[input_len] = c`. -/
def Login.store (s : Login) (c : UInt8) : Option Login :=
  if 0 ≤ s.inputLen ∧ s.inputLen < maxInput then
    some { s with inputBuf := Function.update s.inputBuf s.inputLen.toNat c }
  else none

/-- The common body of the two handlers of `login`; they differ in what they echo. -/
def handleChar (c : UInt8) (s : Login) : Option Login :=
  if c = 0x0A then do
    let s ← s.store 0
    some { s with inputDone := true }
  else if c = 0x08 then
    some (if 0 < s.inputLen then { s with inputLen := s.inputLen - 1 } else s)
  else if s.inputLen < maxInput - 1 then do
    let s ← s.store c
    some { s with inputLen := s.inputLen + 1 }
  else some s

/-- `login_handle_char`. -/
def loginHandleChar (c : UInt8) (s : Login) : Option Login := handleChar c s

/-- `login_handle_pass`. -/
def loginHandlePass (c : UInt8) (s : Login) : Option Login := handleChar c s

/-- Run a handler. What the shell does with a key is not modelled. -/
def runHandler : Handler → UInt8 → Login → Option Login
  | .loginHandleChar, c, s => loginHandleChar c s
  | .loginHandlePass, c, s => loginHandlePass c s
  | .shellHandleChar, _, s => some s

/-- The value of a `char`. -/
def charValue (c : UInt8) : ℤ := if c < 0x80 then c.toNat else c.toNat - 256

/-- `k_strcmp` from index `i` of the first string on, the second one being a literal. -/
def kStrcmp (a : ℕ → UInt8) (i : ℕ) : List UInt8 → ℤ
  | [] => charValue (a i)
  | c :: rest => if a i ≠ 0 ∧ c ≠ 0 ∧ a i = c then kStrcmp a (i + 1) rest
      else charValue (a i) - charValue c

/-- One statement of the main loop. -/
def mainStep (s : Login) : Login :=
  match s.pc with
  | .head => { s with pc := if s.attempts < maxAttempts then .clearLen .user else .locked }
  | .clearLen field => { s with inputLen := 0, pc := .clearDone field }
  | .clearDone field => { s with inputDone := false, pc := .install field }
  | .install field => { s with charHandler := some field.handler, pc := .poll field }
  | .poll field => if s.inputDone then { s with pc := .remove field } else s
  | .remove field => { s with charHandler := none, pc := .compare field }
  | .compare field =>
      if kStrcmp s.inputBuf 0 field.valid ≠ 0 then
        { s with attempts := s.attempts + 1, pc := .head }
      else match field with
        | .user => { s with pc := .clearLen .pass }
        | .pass => { s with pc := .returned }
  | .locked => s
  | .returned => { s with charHandler := some .shellHandleChar, pc := .shell }
  | .shell => s

/-- What may happen next: a statement of the main loop, or an interrupt of the keyboard
with the two bytes that are read from its port. -/
inductive Event
  | main
  | key (first second : UInt8)

/-- Hand a character to the installed handler, if there is one of each. -/
def Login.deliver (s : Login) : Option UInt8 → Option Login
  | none => some s
  | some c =>
      match s.charHandler with
      | none => some s
      | some handler => runHandler handler c s

/-- One event. -/
def Login.step (s : Login) : Event → Option Login
  | .main => some (mainStep s)
  | .key first second =>
      let pressed := keybHandler s.mods first second
      Login.deliver { s with mods := pressed.1 } pressed.2

/-- `login` has returned. -/
def Login.LoggedIn (s : Login) : Prop := s.pc = .returned ∨ s.pc = .shell

instance (s : Login) : Decidable s.LoggedIn := by unfold Login.LoggedIn; infer_instance

/-! ## The record of what was typed -/

/-- What a bystander notes: the line of the entry that is under way, whether Enter has
ended it, the last line submitted for each entry of the attempt, and the number of
attempts rejected so far. -/
structure Record where
  line : List UInt8
  ended : Bool
  submitted : Field → Option (List UInt8)
  rejected : ℕ

/-- Before anything was typed. -/
def Record.start : Record := ⟨[], false, fun _ => none, 0⟩

/-- Type a character on a line: a backspace takes the last character back, and a line
takes no more than 31. -/
def typeChar (line : List UInt8) (c : UInt8) : List UInt8 :=
  if c = 0x08 then line.dropLast else if line.length < 31 then line ++ [c] else line

/-- An entry begins. The user name begins an attempt. -/
def Record.begin (r : Record) (field : Field) : Record where
  line := []
  ended := false
  submitted := if field = .user then fun _ => none else Function.update r.submitted .pass none
  rejected := r.rejected

/-- A character reaches an entry. The first Enter ends it and submits its line; what comes
behind that is no part of it. -/
def Record.type (r : Record) (field : Field) (c : UInt8) : Record :=
  if r.ended then r
  else if c = 0x0A then
    { r with ended := true, submitted := Function.update r.submitted field (some r.line) }
  else { r with line := typeChar r.line c }

/-- What a character adds to the record, by the handler it finds installed. -/
def Record.hear (r : Record) : Option UInt8 → Option Handler → Record
  | some c, some .loginHandleChar => r.type .user c
  | some c, some .loginHandlePass => r.type .pass c
  | _, _ => r

/-- What a statement of the main loop adds to the record. -/
def Record.watch (r : Record) (s : Login) : Record :=
  match s.pc with
  | .install field => r.begin field
  | .compare field =>
      if kStrcmp s.inputBuf 0 field.valid ≠ 0 then { r with rejected := r.rejected + 1 } else r
  | _ => r

/-- What an event in a state adds to the record. -/
def Record.note (r : Record) (s : Login) : Event → Record
  | .main => r.watch s
  | .key first second => r.hear (keybHandler s.mods first second).2 s.charHandler

/-- The machine with its record. -/
structure Session where
  login : Login
  record : Record

/-- The session in which `login` is called. -/
def Session.start (mods : Modifiers) : Session := ⟨.start mods, .start⟩

/-- One event, noted. -/
def Session.step (s : Session) (e : Event) : Option Session := do
  let login ← s.login.step e
  some ⟨login, s.record.note s.login e⟩

/-! ## What an event can do -/

/-- A store inside the buffer. -/
theorem Login.store_eq {s : Login} (h : 0 ≤ s.inputLen ∧ s.inputLen < maxInput) (c : UInt8) :
    s.store c = some { s with inputBuf := Function.update s.inputBuf s.inputLen.toNat c } :=
  if_pos h

/-- What a handler of `login` can do while the length is in bounds. -/
theorem handleChar_cases {c : UInt8} {s s' : Login}
    (hlen : 0 ≤ s.inputLen ∧ s.inputLen < maxInput) (h : handleChar c s = some s') :
    (c = 0x0A ∧ s' = { s with
      inputBuf := Function.update s.inputBuf s.inputLen.toNat 0, inputDone := true }) ∨
    (c ≠ 0x0A ∧ c = 0x08 ∧ s' = { s with inputLen := s.inputLen - 1 } ∧ 0 < s.inputLen) ∨
    (c ≠ 0x0A ∧ c = 0x08 ∧ s' = s ∧ s.inputLen = 0) ∨
    (c ≠ 0x0A ∧ c ≠ 0x08 ∧ s.inputLen < maxInput - 1 ∧ s' = { s with
      inputBuf := Function.update s.inputBuf s.inputLen.toNat c, inputLen := s.inputLen + 1 }) ∨
    (c ≠ 0x0A ∧ c ≠ 0x08 ∧ s.inputLen = maxInput - 1 ∧ s' = s) := by
  unfold handleChar at h
  rw [Login.store_eq hlen, Login.store_eq hlen] at h
  by_cases hnewline : c = 0x0A
  · rw [if_pos hnewline] at h
    exact Or.inl ⟨hnewline, (Option.some.inj h).symm⟩
  rw [if_neg hnewline] at h
  by_cases hback : c = 0x08
  · rw [if_pos hback] at h
    by_cases hpos : 0 < s.inputLen
    · rw [if_pos hpos] at h
      exact Or.inr (Or.inl ⟨hnewline, hback, (Option.some.inj h).symm, hpos⟩)
    · rw [if_neg hpos] at h
      exact Or.inr (Or.inr (Or.inl ⟨hnewline, hback, (Option.some.inj h).symm, by omega⟩))
  rw [if_neg hback] at h
  by_cases hroom : s.inputLen < maxInput - 1
  · rw [if_pos hroom] at h
    exact Or.inr (Or.inr (Or.inr (Or.inl ⟨hnewline, hback, hroom, (Option.some.inj h).symm⟩)))
  · rw [if_neg hroom] at h
    exact Or.inr (Or.inr (Or.inr (Or.inr ⟨hnewline, hback, by omega, (Option.some.inj h).symm⟩)))

/-- The handler installed at each place of the main loop. -/
def Pc.handler : Pc → Option Handler
  | .poll field => some field.handler
  | .remove field => some field.handler
  | .shell => some .shellHandleChar
  | _ => none

/-- The bounds of `attempts` at each place of the main loop. -/
def Pc.AttemptsOk (attempts : ℕ) : Pc → Prop
  | .head => attempts ≤ maxAttempts
  | .locked => attempts = maxAttempts
  | _ => attempts < maxAttempts

/-- The invariant of the login screen. -/
structure Session.Safe (s : Session) : Prop where
  len : 0 ≤ s.login.inputLen ∧ s.login.inputLen < maxInput
  handler : s.login.charHandler = s.login.pc.handler
  attempts : s.login.pc.AttemptsOk s.login.attempts
  rejected : s.record.rejected = s.login.attempts

theorem safe_start (mods : Modifiers) : (Session.start mods).Safe where
  len := show (0 : ℤ) ≤ 0 ∧ (0 : ℤ) < maxInput by decide
  handler := rfl
  attempts := show 0 ≤ maxAttempts by decide
  rejected := rfl

/-- The places where a handler of `login` is installed. -/
theorem Pc.eq_of_handler {pc : Pc} {field : Field} (h : pc.handler = some field.handler) :
    pc = .poll field ∨ pc = .remove field := by
  cases pc with
  | poll field' => cases field <;> cases field' <;> first | exact Or.inl rfl | cases h
  | remove field' => cases field <;> cases field' <;> first | exact Or.inr rfl | cases h
  | shell => cases field <;> cases h
  | _ => cases h

/-- A character that is handed over does nothing, or runs a handler of `login`. -/
theorem Login.deliver_cases {s s' : Login} {c : Option UInt8} (r : Record)
    (h : s.deliver c = some s') :
    (s' = s ∧ r.hear c s.charHandler = r) ∨
      ∃ field c', c = some c' ∧ s.charHandler = some (Field.handler field) ∧
        handleChar c' s = some s' ∧ r.hear c s.charHandler = r.type field c' := by
  cases s with
  | mk mods charHandler inputBuf inputLen inputDone attempts pc =>
    cases c with
    | none => exact Or.inl ⟨(Option.some.inj h).symm, rfl⟩
    | some c =>
      cases charHandler with
      | none => exact Or.inl ⟨(Option.some.inj h).symm, rfl⟩
      | some handler =>
        cases handler with
        | loginHandleChar => exact Or.inr ⟨.user, c, rfl, rfl, h, rfl⟩
        | loginHandlePass => exact Or.inr ⟨.pass, c, rfl, rfl, h, rfl⟩
        | shellHandleChar => exact Or.inl ⟨(Option.some.inj h).symm, rfl⟩

/-- What a key can do: nothing but a change of the modifiers, or a run of a handler of
`login` with a character that is not NUL. -/
theorem Session.Safe.key_cases {s s' : Session} (hsafe : s.Safe) {first second : UInt8}
    (h : s.step (.key first second) = some s') :
    (∃ mods, s' = ⟨{ s.login with mods := mods }, s.record⟩) ∨
      ∃ mods field c, (keybHandler s.login.mods first second).2 = some c ∧ c ≠ 0 ∧
        (s.login.pc = .poll field ∨ s.login.pc = .remove field) ∧
        handleChar c { s.login with mods := mods } = some s'.login ∧
        s'.record = s.record.type field c := by
  obtain ⟨login, hlogin, hs'⟩ := Option.bind_eq_some_iff.mp h
  obtain rfl := Option.some.inj hs'
  rcases Login.deliver_cases s.record hlogin with
    ⟨hsame, hrecord⟩ | ⟨field, c, hc, hhandler, hrun, hrecord⟩
  · left
    exact ⟨_, by rw [hsame]; exact congrArg (Session.mk _) hrecord⟩
  · right
    have hplace : s.login.pc = .poll field ∨ s.login.pc = .remove field :=
      Pc.eq_of_handler (hsafe.handler ▸ hhandler)
    exact ⟨_, field, c, hc, keybHandler_ne_zero hc, hplace, hrun, hrecord⟩

/-- While the length is in bounds no character makes a handler fault. -/
theorem exists_handleChar {s : Login} (hlen : 0 ≤ s.inputLen ∧ s.inputLen < maxInput)
    (c : UInt8) : ∃ s', handleChar c s = some s' := by
  unfold handleChar
  rw [Login.store_eq hlen, Login.store_eq hlen]
  split_ifs <;> exact ⟨_, rfl⟩

/-- No event faults. -/
theorem Session.Safe.exists_step {s : Session} (hsafe : s.Safe) (e : Event) :
    ∃ s', s.step e = some s' := by
  have hdeliver (login : Login) (hlen : 0 ≤ login.inputLen ∧ login.inputLen < maxInput)
      (c : Option UInt8) : ∃ login', login.deliver c = some login' := by
    cases login with
    | mk mods charHandler inputBuf inputLen inputDone attempts pc =>
      cases c with
      | none => exact ⟨_, rfl⟩
      | some c =>
        cases charHandler with
        | none => exact ⟨_, rfl⟩
        | some handler =>
          cases handler with
          | loginHandleChar => exact exists_handleChar hlen c
          | loginHandlePass => exact exists_handleChar hlen c
          | shellHandleChar => exact ⟨_, rfl⟩
  have hlogin : ∃ login, s.login.step e = some login := by
    cases e with
    | main => exact ⟨_, rfl⟩
    | key first second =>
        exact hdeliver { s.login with mods := (keybHandler s.login.mods first second).1 } hsafe.len
          (keybHandler s.login.mods first second).2
  obtain ⟨login, hlogin⟩ := hlogin
  exact ⟨⟨login, s.record.note s.login e⟩, by rw [Session.step, hlogin]; rfl⟩

/-- A statement of the main loop keeps the invariant. -/
theorem Session.Safe.main {s : Session} (hsafe : s.Safe) :
    (⟨mainStep s.login, s.record.watch s.login⟩ : Session).Safe := by
  obtain ⟨⟨mods, charHandler, inputBuf, inputLen, inputDone, attempts, pc⟩, record⟩ := s
  obtain ⟨hlen, hhandler, hattempts, hrejected⟩ := hsafe
  cases pc with
  | head =>
      by_cases hroom : attempts < maxAttempts
      · simp only [mainStep, Record.watch, if_pos hroom]
        exact ⟨hlen, hhandler, hroom, hrejected⟩
      · simp only [mainStep, Record.watch, if_neg hroom]
        exact ⟨hlen, hhandler, Nat.le_antisymm hattempts (Nat.not_lt.mp hroom), hrejected⟩
  | clearLen field =>
      exact ⟨show (0 : ℤ) ≤ 0 ∧ (0 : ℤ) < maxInput by decide, hhandler, hattempts, hrejected⟩
  | clearDone field => exact ⟨hlen, hhandler, hattempts, hrejected⟩
  | install field => exact ⟨hlen, rfl, hattempts, hrejected⟩
  | poll field =>
      cases inputDone with
      | true => exact ⟨hlen, hhandler, hattempts, hrejected⟩
      | false => exact ⟨hlen, hhandler, hattempts, hrejected⟩
  | remove field => exact ⟨hlen, rfl, hattempts, hrejected⟩
  | compare field =>
      by_cases hcmp : kStrcmp inputBuf 0 field.valid ≠ 0
      · simp only [mainStep, Record.watch, if_pos hcmp]
        exact ⟨hlen, hhandler, Nat.succ_le_of_lt hattempts, congrArg (· + 1) hrejected⟩
      · simp only [mainStep, Record.watch, if_neg hcmp]
        cases field with
        | user => exact ⟨hlen, hhandler, hattempts, hrejected⟩
        | pass => exact ⟨hlen, hhandler, hattempts, hrejected⟩
  | locked => exact ⟨hlen, hhandler, hattempts, hrejected⟩
  | returned => exact ⟨hlen, rfl, hattempts, hrejected⟩
  | shell => exact ⟨hlen, hhandler, hattempts, hrejected⟩

/-- A character keeps the length in bounds and leaves the main loop alone. -/
theorem handleChar_safe {c : UInt8} {s s' : Login}
    (hlen : 0 ≤ s.inputLen ∧ s.inputLen < maxInput) (h : handleChar c s = some s') :
    (0 ≤ s'.inputLen ∧ s'.inputLen < maxInput) ∧ s'.charHandler = s.charHandler ∧
      s'.pc = s.pc ∧ s'.attempts = s.attempts := by
  rcases handleChar_cases hlen h with ⟨-, rfl⟩ | ⟨-, -, rfl, hpos⟩ | ⟨-, -, rfl, -⟩ |
    ⟨-, -, hroom, rfl⟩ | ⟨-, -, -, rfl⟩
  · exact ⟨hlen, rfl, rfl, rfl⟩
  · exact ⟨⟨by dsimp only; omega, by dsimp only; omega⟩, rfl, rfl, rfl⟩
  · exact ⟨hlen, rfl, rfl, rfl⟩
  · exact ⟨⟨by dsimp only; omega, by dsimp only; omega⟩, rfl, rfl, rfl⟩
  · exact ⟨hlen, rfl, rfl, rfl⟩

@[simp]
theorem Record.type_rejected (r : Record) (field : Field) (c : UInt8) :
    (r.type field c).rejected = r.rejected := by
  unfold Record.type
  split_ifs <;> rfl

/-- **Every event keeps the invariant.** -/
theorem Session.Safe.step {s s' : Session} (hsafe : s.Safe) {e : Event}
    (h : s.step e = some s') : s'.Safe := by
  cases e with
  | main =>
      obtain rfl := Option.some.inj h
      exact hsafe.main
  | key first second =>
      rcases hsafe.key_cases h with ⟨mods, rfl⟩ | ⟨mods, field, c, -, -, -, hrun, hrecord⟩
      · exact ⟨hsafe.len, hsafe.handler, hsafe.attempts, hsafe.rejected⟩
      · obtain ⟨hlen, hhandler, hpc, hattempts⟩ :=
          handleChar_safe (s := { s.login with mods := mods }) hsafe.len hrun
        refine ⟨hlen, ?_, ?_, ?_⟩
        · rw [hhandler, hpc]
          exact hsafe.handler
        · rw [hpc, hattempts]
          exact hsafe.attempts
        · rw [hrecord, hattempts, Record.type_rejected]
          exact hsafe.rejected

/-! ## Lockout and containment -/

/-- The sessions that any interleaving of events reaches. -/
def Session.Reachable (mods : Modifiers) (s : Session) : Prop :=
  Runs Session.step (fun _ _ => True) (Session.start mods) s

theorem Session.Reachable.safe {mods : Modifiers} {s : Session} (h : s.Reachable mods) : s.Safe :=
  Runs.invariant (fun _ _ _ hsafe _ hstep => hsafe.step hstep) h (safe_start mods)

/-- When the last attempt was rejected, the main loop is on its way to the halt. -/
theorem Session.Safe.halting {s : Session} (hsafe : s.Safe)
    (hrejected : s.record.rejected = maxAttempts) :
    s.login.pc = .head ∨ s.login.pc = .locked := by
  have hattempts := hsafe.attempts
  rw [← hsafe.rejected, hrejected] at hattempts
  cases hpc : s.login.pc with
  | head => exact Or.inl rfl
  | locked => exact Or.inr rfl
  | _ =>
      rw [hpc] at hattempts
      exact absurd hattempts (Nat.lt_irrefl maxAttempts)

/-- Behind the last attempt no event rejects another, or takes a rejection back. -/
theorem Session.Safe.halting_step {s s' : Session} (hsafe : s.Safe)
    (hrejected : s.record.rejected = maxAttempts) {e : Event} (h : s.step e = some s') :
    s'.record.rejected = maxAttempts := by
  cases e with
  | main =>
      obtain rfl := Option.some.inj h
      have hwatch : s.record.watch s.login = s.record := by
        unfold Record.watch
        rcases hsafe.halting hrejected with hpc | hpc <;> rw [hpc]
      exact (congrArg Record.rejected hwatch).trans hrejected
  | key first second =>
      rcases hsafe.key_cases h with ⟨mods, rfl⟩ | ⟨mods, field, c, -, -, -, -, hrecord⟩
      · exact hrejected
      · rw [hrecord, Record.type_rejected]
        exact hrejected

/-- **Lockout and containment.** Until `login` returns no key reaches the shell, the length
and every index that is written stay inside the buffer, and at most `MAX_ATTEMPTS` attempts
are rejected; once that many are, no sequence of events makes `login` return. -/
theorem login_contained {mods : Modifiers} {s : Session} (hreach : s.Reachable mods) :
    (¬ s.login.LoggedIn →
      s.login.charHandler ∈ [none, some .loginHandleChar, some .loginHandlePass] ∧
      (0 ≤ s.login.inputLen ∧ s.login.inputLen ≤ 31) ∧ (∀ e, ∃ s', s.step e = some s') ∧
      s.record.rejected ≤ maxAttempts) ∧
    (s.record.rejected = maxAttempts → ∀ s', Runs Session.step (fun _ _ => True) s s' →
      ¬ s'.login.LoggedIn) := by
  have hsafe := hreach.safe
  constructor
  · intro hout
    have hhandler := hsafe.handler
    have hattempts := hsafe.attempts
    refine ⟨?_, ⟨hsafe.len.1, Int.le_of_lt_add_one hsafe.len.2⟩, hsafe.exists_step, ?_⟩
    · rw [hhandler]
      cases hpc : s.login.pc with
      | poll field => cases field <;> simp [Pc.handler, Field.handler]
      | remove field => cases field <;> simp [Pc.handler, Field.handler]
      | shell => exact absurd (Or.inr hpc) hout
      | _ => simp [Pc.handler]
    · rw [hsafe.rejected]
      cases hpc : s.login.pc with
      | head =>
          rw [hpc] at hattempts
          exact hattempts
      | locked =>
          rw [hpc] at hattempts
          exact Nat.le_of_eq hattempts
      | _ =>
          rw [hpc] at hattempts
          exact Nat.le_of_lt hattempts
  · intro hrejected s' hrun hin
    have hinv : s'.Safe ∧ s'.record.rejected = maxAttempts :=
      hrun.invariant (I := fun s => s.Safe ∧ s.record.rejected = maxAttempts)
        (fun _ _ _ h _ hstep => ⟨h.1.step hstep, h.1.halting_step h.2 hstep⟩) ⟨hsafe, hrejected⟩
    rcases hinv.1.halting hinv.2 with hpc | hpc <;> rcases hin with hin | hin <;>
      rw [hpc] at hin <;> cases hin

/-- An attempt in which Enter is pressed at once. -/
def emptyAttempt : List Event :=
  [.main, .main, .main, .main, .key 28 28, .main, .main, .main]

/-- Three such attempts lock the screen. -/
theorem login_contained_locked : ∃ s : Session, s.Reachable ⟨false, false⟩ ∧
    s.record.rejected = maxAttempts ∧
    ∀ s', Runs Session.step (fun _ _ => True) s s' → ¬ s'.login.LoggedIn := by
  have hrun : (takeAll Session.step (fun _ _ => true) (emptyAttempt ++ emptyAttempt ++ emptyAttempt)
      (Session.start ⟨false, false⟩)).map (fun s => s.record.rejected) = some maxAttempts := by
    decide +kernel
  obtain ⟨s, hs, hrejected⟩ := Option.map_eq_some_iff.mp hrun
  have hreach : s.Reachable ⟨false, false⟩ := runs_of_takeAll (fun _ _ _ => trivial) hs
  exact ⟨s, hreach, hrejected, (login_contained hreach).2 hrejected⟩

end MasterOS.Console
