/-
# What the login screen accepts

Behind the Enter that ends an entry the handler stays installed until the main loop has
noticed, and it goes on editing the buffer that is then compared. As long as no key does so
in that time, the buffer holds the line that was submitted, and `login` returns only for
the right one.
-/

import MasterOS.Console.Login
import Mathlib.Data.List.Basic

namespace MasterOS.Console

open MasterOS.Math

/-! ## Comparing strings -/

theorem charValue_injective {c c' : UInt8} (h : charValue c = charValue c') : c = c' := by
  unfold charValue at h
  have hc := c.toNat_lt
  have hc' := c'.toNat_lt
  apply UInt8.toNat_inj.mp
  split_ifs at h with hlow hlow' hlow' <;> rw [UInt8.lt_iff_toNat_lt] at * <;>
    simp only [UInt8.reduceToNat] at * <;> omega

/-- The buffer holds a line from index `i` on, with a terminator behind it. -/
def Spells (a : ℕ → UInt8) (i : ℕ) (line : List UInt8) : Prop :=
  (∀ (k : ℕ) c, (line)[k]? = some c → a (i + k) = c) ∧ a (i + line.length) = 0

/-- `k_strcmp` on two strings without a NUL. -/
theorem kStrcmp_eq_zero_iff {a : ℕ → UInt8} {i : ℕ} {line valid : List UInt8}
    (hline : ∀ c ∈ line, c ≠ 0) (hvalid : ∀ c ∈ valid, c ≠ 0) (h : Spells a i line) :
    kStrcmp a i valid = 0 ↔ line = valid := by
  have hzero : charValue 0 = 0 := rfl
  induction valid generalizing i line with
  | nil =>
      cases line with
      | nil => exact iff_of_true (by rw [kStrcmp, show a i = 0 from h.2, hzero]) rfl
      | cons c rest =>
          have hc : a i = c := h.1 0 c rfl
          refine iff_of_false (fun heq => ?_) nofun
          rw [kStrcmp, hc] at heq
          exact hline c List.mem_cons_self (charValue_injective (heq.trans hzero.symm))
  | cons v valid ih =>
      have hv : v ≠ 0 := hvalid v List.mem_cons_self
      cases line with
      | nil =>
          have ha : a i = 0 := h.2
          refine iff_of_false (fun heq => ?_) nofun
          rw [kStrcmp, if_neg fun hall => hall.1 ha, ha, hzero] at heq
          exact hv (charValue_injective (by rw [hzero]; omega))
      | cons c rest =>
          have hc : a i = c := h.1 0 c rfl
          have hne : c ≠ 0 := hline c List.mem_cons_self
          have hrest : Spells a (i + 1) rest := by
            refine ⟨fun k x hx => ?_, ?_⟩
            · rw [Nat.add_assoc, Nat.add_comm 1 k]
              exact h.1 (k + 1) x hx
            · rw [Nat.add_assoc, Nat.add_comm 1]
              exact h.2
          rw [kStrcmp, hc, List.cons.injEq]
          by_cases heq : c = v
          · rw [if_pos ⟨hne, hv, heq⟩]
            have hsame := ih (fun x hx => hline x (List.mem_cons_of_mem _ hx))
              (fun x hx => hvalid x (List.mem_cons_of_mem _ hx)) hrest
            exact hsame.trans (and_iff_right heq).symm
          · rw [if_neg fun hall => heq hall.2.2]
            refine iff_of_false (fun hsub => heq (charValue_injective ?_)) fun hall => heq hall.1
            omega

/-! ## The time behind Enter -/

/-- The byte that a character writes at `input_buf[input_len]`. -/
def written (inputLen : ℤ) (c : UInt8) : Option UInt8 :=
  if c = 0x0A then some 0
  else if c = 0x08 then none
  else if inputLen < maxInput - 1 then some c
  else none

/-- The event changes no byte of an entry that Enter has ended: a key that reaches a handler
of `login` while `input_done` is set writes nothing, or what is there. -/
def Quiet (s : Session) : Event → Prop
  | .main => True
  | .key first second => ∀ field c byte, s.login.inputDone = true →
      s.login.charHandler = some (Field.handler field) →
      (keybHandler s.login.mods first second).2 = some c →
      written s.login.inputLen c = some byte → s.login.inputBuf s.login.inputLen.toNat = byte

/-! ## The buffer and the record agree -/

/-- While an entry is open the buffer holds its line without a terminator. -/
structure Typing (inputLen : ℤ) (inputBuf : ℕ → UInt8) (r : Record) : Prop where
  ended : r.ended = false
  len : inputLen = r.line.length
  buf : ∀ k c, r.line[k]? = some c → inputBuf k = c
  ne_zero : ∀ c ∈ r.line, c ≠ 0

/-- Behind Enter the buffer holds the line that was submitted. -/
structure Submitted (inputBuf : ℕ → UInt8) (r : Record) (field : Field) : Prop where
  ended : r.ended = true
  submitted : r.submitted field = some r.line
  buf : Spells inputBuf 0 r.line
  ne_zero : ∀ c ∈ r.line, c ≠ 0

/-- What the main loop knows at each place of an entry. -/
def Session.EntryOk (s : Session) : Pc → Prop
  | .poll field =>
      if s.login.inputDone then Submitted s.login.inputBuf s.record field
      else Typing s.login.inputLen s.login.inputBuf s.record
  | .remove field => s.login.inputDone = true ∧ Submitted s.login.inputBuf s.record field
  | .compare field => Submitted s.login.inputBuf s.record field
  | .install _ => s.login.inputLen = 0 ∧ s.login.inputDone = false
  | .clearDone _ => s.login.inputLen = 0
  | .returned => s.record.submitted .pass = some validPass
  | .shell => s.record.submitted .pass = some validPass
  | _ => True

/-- The places behind a user name that was accepted. -/
def Pc.BehindUser : Pc → Prop
  | .head => False
  | .locked => False
  | .clearLen field => field = .pass
  | .clearDone field => field = .pass
  | .install field => field = .pass
  | .poll field => field = .pass
  | .remove field => field = .pass
  | .compare field => field = .pass
  | .returned => True
  | .shell => True

/-- The invariant: what the buffer holds, and that the user name was right. -/
structure Session.Agrees (s : Session) : Prop where
  safe : s.Safe
  entry : s.EntryOk s.login.pc
  user : s.login.pc.BehindUser → s.record.submitted .user = some validUser

theorem agrees_start (mods : Modifiers) : (Session.start mods).Agrees :=
  ⟨safe_start mods, trivial, nofun⟩

theorem Field.valid_ne_zero (field : Field) : ∀ c ∈ field.valid, c ≠ 0 := by
  cases field <;> decide +kernel

/-- A comparison accepts the right line only. -/
theorem Submitted.accepts_iff {inputBuf : ℕ → UInt8} {r : Record} {field : Field}
    (h : Submitted inputBuf r field) :
    kStrcmp inputBuf 0 field.valid = 0 ↔ r.submitted field = some field.valid := by
  rw [kStrcmp_eq_zero_iff h.ne_zero field.valid_ne_zero h.buf, h.submitted, Option.some.injEq]

/-- An entry begins with an empty line. -/
theorem typing_begin (inputBuf : ℕ → UInt8) (r : Record) (field : Field) :
    Typing 0 inputBuf (r.begin field) where
  ended := rfl
  len := rfl
  buf _ _ h := nomatch h
  ne_zero _ h := nomatch h

/-- A statement of the main loop keeps the agreement. -/
theorem Session.Agrees.main {s : Session} (h : s.Agrees) :
    (⟨mainStep s.login, s.record.watch s.login⟩ : Session).Agrees := by
  have hsafe := h.safe.main
  obtain ⟨⟨mods, charHandler, inputBuf, inputLen, inputDone, attempts, pc⟩, record⟩ := s
  obtain ⟨-, hentry, huser⟩ := h
  cases pc with
  | head =>
      refine ⟨hsafe, ?_, ?_⟩ <;> dsimp only [mainStep] <;> split_ifs
      · trivial
      · trivial
      · exact fun hpass => absurd hpass nofun
      · exact fun hnot => hnot.elim
  | clearLen field => exact ⟨hsafe, rfl, huser⟩
  | clearDone field => exact ⟨hsafe, ⟨hentry, rfl⟩, huser⟩
  | install field =>
      obtain ⟨hlen, hdone⟩ := hentry
      have hlen : inputLen = 0 := hlen
      have hdone : inputDone = false := hdone
      subst hlen hdone
      refine ⟨hsafe, typing_begin inputBuf record field, fun hpass => ?_⟩
      have hfield : field = .pass := hpass
      subst hfield
      exact huser rfl
  | poll field =>
      cases inputDone with
      | true => exact ⟨hsafe, ⟨rfl, hentry⟩, huser⟩
      | false => exact ⟨hsafe, hentry, huser⟩
  | remove field => exact ⟨hsafe, hentry.2, huser⟩
  | compare field =>
      have haccepts := Submitted.accepts_iff hentry
      by_cases hcmp : kStrcmp inputBuf 0 field.valid = 0
      · simp only [mainStep, Record.watch, if_neg (not_not.mpr hcmp)] at hsafe ⊢
        have hright := haccepts.mp hcmp
        cases field with
        | user => exact ⟨hsafe, trivial, fun _ => hright⟩
        | pass => exact ⟨hsafe, hright, fun _ => huser rfl⟩
      · simp only [mainStep, Record.watch, if_pos hcmp] at hsafe ⊢
        exact ⟨hsafe, trivial, fun hnot => hnot.elim⟩
  | locked => exact ⟨hsafe, trivial, fun hnot => hnot.elim⟩
  | returned => exact ⟨hsafe, hentry, huser⟩
  | shell => exact ⟨hsafe, hentry, huser⟩

/-- A character that reaches an open entry goes on its line, or submits it. -/
theorem Typing.key {s s' : Login} {r : Record} {field : Field} {c : UInt8}
    (h : Typing s.inputLen s.inputBuf r) (hc : c ≠ 0)
    (hlen : 0 ≤ s.inputLen ∧ s.inputLen < maxInput)
    (hrun : handleChar c s = some s') :
    (s'.inputDone = s.inputDone ∧
        Typing s'.inputLen s'.inputBuf (r.type field c)) ∨
      (s'.inputDone = true ∧ Submitted s'.inputBuf (r.type field c) field) := by
  obtain ⟨hended, hcount, hbuf, hne⟩ := h
  have hnat : s.inputLen.toNat = r.line.length := by omega
  have hother (x : UInt8) {k : ℕ} {b : UInt8} (hk : r.line[k]? = some b) :
      Function.update s.inputBuf r.line.length x k = b := by
    have hlt : k < r.line.length := (List.getElem?_eq_some_iff.mp hk).1
    rw [Function.update_of_ne (Nat.ne_of_lt hlt)]
    exact hbuf k b hk
  have htype (hline : c ≠ 0x0A) : r.type field c = { r with line := typeChar r.line c } := by
    rw [Record.type, hended, if_neg Bool.false_ne_true, if_neg hline]
  rcases handleChar_cases hlen hrun with ⟨rfl, rfl⟩ | ⟨hline, rfl, rfl, hpos⟩ |
    ⟨hline, rfl, rfl, hzero⟩ | ⟨hline, hback, hroom, rfl⟩ | ⟨hline, hback, hfull, rfl⟩
  · -- Enter
    right
    have henter : r.type field 0x0A =
        { r with ended := true, submitted := Function.update r.submitted field (some r.line) } := by
      rw [Record.type, hended, if_neg Bool.false_ne_true, if_pos rfl]
    rw [henter, hnat]
    refine ⟨rfl, rfl, Function.update_self .., ⟨fun k b hk => ?_, ?_⟩, hne⟩
    · rw [Nat.zero_add]
      exact hother 0 hk
    · rw [Nat.zero_add]
      exact Function.update_self ..
  · -- a backspace on a line that is not empty
    left
    rw [htype hline]
    refine ⟨rfl, hended, ?_, fun k b hk => ?_, fun b hb => ?_⟩
    · dsimp only
      rw [typeChar, if_pos rfl, List.length_dropLast]
      omega
    · dsimp only at hk
      rw [typeChar, if_pos rfl, List.getElem?_dropLast] at hk
      split_ifs at hk
      exact hbuf k b hk
    · dsimp only at hb
      rw [typeChar, if_pos rfl] at hb
      exact hne b (List.dropLast_subset _ hb)
  · -- a backspace on the empty line
    left
    have hnil : r.line = [] := List.length_eq_zero_iff.mp (by omega)
    have hsame : ({ r with line := typeChar r.line 0x08 } : Record) = r := by
      rw [hnil]
      exact congrArg (fun line => { r with line := line }) hnil.symm
    rw [htype hline, hsame]
    exact ⟨rfl, hended, hcount, hbuf, hne⟩
  · -- a character that fits
    left
    have hfits : r.line.length < 31 := by
      unfold maxInput at hroom
      omega
    rw [htype hline, typeChar, if_neg hback, if_pos hfits, hnat]
    refine ⟨rfl, hended, ?_, fun k b hk => ?_, fun b hb => ?_⟩
    · dsimp only
      rw [List.length_append, List.length_singleton]
      omega
    · dsimp only at hk ⊢
      rcases Nat.lt_trichotomy k r.line.length with hlt | rfl | hgt
      · rw [List.getElem?_append_left hlt] at hk
        exact hother c hk
      · rw [List.getElem?_concat_length] at hk
        rw [Function.update_self]
        exact Option.some.inj hk
      · rw [List.getElem?_eq_none (by rw [List.length_append, List.length_singleton]; omega)] at hk
        cases hk
    · rcases List.mem_append.mp hb with hb | hb
      · exact hne b hb
      · rw [List.mem_singleton.mp hb]
        exact hc
  · -- a character behind the 31st
    left
    have hcut : ¬ r.line.length < 31 := by
      unfold maxInput at hfull
      omega
    rw [htype hline, typeChar, if_neg hback, if_neg hcut]
    exact ⟨rfl, hended, hcount, hbuf, hne⟩

/-- What is typed as a password leaves the user name. -/
theorem Record.type_submitted_user (r : Record) (c : UInt8) :
    (r.type .pass c).submitted .user = r.submitted .user := by
  unfold Record.type
  split_ifs
  · rfl
  · exact Function.update_of_ne (show Field.user ≠ .pass by decide) (some r.line) r.submitted
  · rfl

/-- A quiet key leaves a submitted line in the buffer. -/
theorem Submitted.key {s s' : Login} {r : Record} {field : Field} {c : UInt8}
    (h : Submitted s.inputBuf r field)
    (hlen : 0 ≤ s.inputLen ∧ s.inputLen < maxInput)
    (hrun : handleChar c s = some s')
    (hquiet : ∀ byte, written s.inputLen c = some byte →
      s.inputBuf s.inputLen.toNat = byte) (field' : Field) :
    (s.inputDone = true → s'.inputDone = true) ∧
      s'.inputBuf = s.inputBuf ∧ r.type field' c = r := by
  have htype : r.type field' c = r := by rw [Record.type, h.ended, if_pos rfl]
  have hsame {byte : UInt8} (hbyte : written s.inputLen c = some byte) :
      Function.update s.inputBuf s.inputLen.toNat byte = s.inputBuf := by
    rw [← hquiet byte hbyte, Function.update_eq_self]
  rcases handleChar_cases hlen hrun with ⟨rfl, rfl⟩ | ⟨hline, rfl, rfl, hpos⟩ |
    ⟨hline, rfl, rfl, hzero⟩ | ⟨hline, hback, hroom, rfl⟩ | ⟨hline, hback, hfull, rfl⟩
  · exact ⟨fun _ => rfl, hsame rfl, htype⟩
  · exact ⟨id, rfl, htype⟩
  · exact ⟨id, rfl, htype⟩
  · exact ⟨id, hsame (by rw [written, if_neg hline, if_neg hback, if_pos hroom]), htype⟩
  · exact ⟨id, rfl, htype⟩

/-- **Every quiet event keeps the agreement.** -/
theorem Session.Agrees.step {s s' : Session} (h : s.Agrees) {e : Event} (hquiet : Quiet s e)
    (hstep : s.step e = some s') : s'.Agrees := by
  have hsafe' := h.safe.step hstep
  cases e with
  | main =>
      obtain rfl := Option.some.inj hstep
      exact h.main
  | key first second =>
      rcases h.safe.key_cases hstep with ⟨mods, rfl⟩ | ⟨mods, field, c, hc, hne, hplace, hrun, hrecord⟩
      · exact ⟨hsafe', h.entry, h.user⟩
      have hlen := h.safe.len
      have hpc : s'.login.pc = s.login.pc :=
        (handleChar_safe (s := { s.login with mods := mods }) hlen hrun).2.2.1
      have hhandler : s.login.charHandler = some field.handler := by
        rw [h.safe.handler]
        rcases hplace with hplace | hplace <;> rw [hplace] <;> rfl
      have hwritten (hdone : s.login.inputDone = true) (byte : UInt8) :
          written s.login.inputLen c = some byte →
            s.login.inputBuf s.login.inputLen.toNat = byte :=
        hquiet field c byte hdone hhandler hc
      have hentry := h.entry
      refine ⟨hsafe', ?_, fun hbehind => ?_⟩
      · rcases hplace with hplace | hplace
        · rw [hpc, hplace]
          rw [hplace] at hentry
          unfold Session.EntryOk at hentry ⊢
          dsimp only at hentry ⊢
          rw [hrecord]
          cases hdone : s.login.inputDone with
          | true =>
              rw [hdone, if_pos rfl] at hentry
              obtain ⟨hstill, hbuf, htype⟩ :=
                hentry.key (s := { s.login with mods := mods }) hlen hrun (hwritten hdone) field
              rw [hstill hdone, if_pos rfl, hbuf, htype]
              exact hentry
          | false =>
              rw [hdone, if_neg Bool.false_ne_true] at hentry
              rcases hentry.key (s := { s.login with mods := mods }) hne hlen hrun with
                ⟨hsame, htyping⟩ | ⟨hset, hsubmitted⟩
              · rw [hsame.trans hdone, if_neg Bool.false_ne_true]
                exact htyping
              · rw [hset, if_pos rfl]
                exact hsubmitted
        · rw [hpc, hplace]
          rw [hplace] at hentry
          unfold Session.EntryOk at hentry ⊢
          dsimp only at hentry ⊢
          rw [hrecord]
          obtain ⟨hdone, hsubmitted⟩ := hentry
          obtain ⟨hstill, hbuf, htype⟩ :=
            hsubmitted.key (s := { s.login with mods := mods }) hlen hrun (hwritten hdone) field
          rw [hbuf, htype]
          exact ⟨hstill hdone, hsubmitted⟩
      · -- behind the user name it is the password that is typed
        rw [hpc] at hbehind
        have hfield : field = .pass := by
          rcases hplace with hplace | hplace
          · rw [hplace] at hbehind
            exact hbehind
          · rw [hplace] at hbehind
            exact hbehind
        rw [hrecord, hfield, Record.type_submitted_user]
        exact h.user hbehind

/-- **The login screen accepts the submitted credentials only.** In every run in which no key
edits an entry that Enter has ended, `login` returns only when the user name and the password
submitted in one of the first `MAX_ATTEMPTS` attempts are the right ones. -/
theorem login_accepts_submitted {mods : Modifiers} {s : Session}
    (hrun : Runs Session.step Quiet (Session.start mods) s) (hin : s.login.LoggedIn) :
    s.record.rejected < maxAttempts ∧ s.record.submitted .user = some validUser ∧
      s.record.submitted .pass = some validPass := by
  have h : s.Agrees := hrun.invariant (I := Session.Agrees)
    (fun _ _ _ hagrees hquiet hstep => hagrees.step hquiet hstep) (agrees_start mods)
  have hattempts := h.safe.attempts
  have hentry := h.entry
  have huser := h.user
  rw [h.safe.rejected]
  rcases hin with hpc | hpc
  · rw [hpc] at hattempts hentry huser
    exact ⟨hattempts, huser trivial, hentry⟩
  · rw [hpc] at hattempts hentry huser
    exact ⟨hattempts, huser trivial, hentry⟩

/-- The keys of the right credentials. -/
def rightKeys : List Event :=
  [.main, .main, .main, .main, .key 34 34, .key 20 20, .key 30 30, .key 35 35, .key 30 30,
    .key 28 28, .main, .main, .main, .main, .main, .main, .key 2 2, .key 4 4, .key 6 6, .key 28 28,
    .main, .main, .main]

/-- No key comes behind Enter before the handler is removed. -/
def beforeEnter (s : Session) : Event → Bool
  | .main => true
  | .key _ _ => !s.login.inputDone

theorem quiet_of_beforeEnter (s : Session) (e : Event) (h : beforeEnter s e = true) :
    Quiet s e := by
  cases e with
  | main => trivial
  | key first second =>
      intro field c byte hdone
      rw [beforeEnter, hdone] at h
      cases h

/-- With these keys `login` returns. -/
theorem login_accepts_right_keys : ∃ s : Session,
    Runs Session.step Quiet (Session.start ⟨false, false⟩) s ∧ s.login.LoggedIn ∧
      s.record.submitted .user = some validUser := by
  have hrun : (takeAll Session.step beforeEnter rightKeys (Session.start ⟨false, false⟩)).map
      (fun s => decide s.login.LoggedIn) = some true := by
    decide +kernel
  obtain ⟨s, hs, hin⟩ := Option.map_eq_some_iff.mp hrun
  have hquiet := runs_of_takeAll quiet_of_beforeEnter hs
  have hlogged : s.login.LoggedIn := of_decide_eq_true hin
  exact ⟨s, hquiet, hlogged, (login_accepts_submitted hquiet hlogged).2.1⟩

/-- A user types `gta`, Enter, and `ha` before the main loop has noticed; then the password. -/
def lateKeys : List Event :=
  [.main, .main, .main, .main, .key 34 34, .key 20 20, .key 30 30, .key 28 28, .key 35 35,
    .key 30 30, .main, .main, .main, .main, .main, .main, .key 2 2, .key 4 4, .key 6 6, .key 28 28,
    .main, .main, .main]

/-- The line submitted is `gta`, and `login` returns. -/
theorem login_accepts_late_keys : ∃ s : Session,
    Runs Session.step (fun _ _ => True) (Session.start ⟨false, false⟩) s ∧ s.login.LoggedIn ∧
      ¬ (s.record.rejected < maxAttempts ∧ s.record.submitted .user = some validUser ∧
        s.record.submitted .pass = some validPass) := by
  have hrun : (takeAll Session.step (fun _ _ => true) lateKeys (Session.start ⟨false, false⟩)).map
      (fun s => (decide s.login.LoggedIn, s.record.submitted .user)) =
        some (true, some [0x67, 0x74, 0x61]) := by
    decide +kernel
  obtain ⟨s, hs, hend⟩ := Option.map_eq_some_iff.mp hrun
  injection hend with hin huser
  refine ⟨s, runs_of_takeAll (fun _ _ _ => trivial) hs, of_decide_eq_true hin, fun hall => ?_⟩
  have hsame := huser.symm.trans hall.2.1
  exact absurd hsame (by decide)

end MasterOS.Console
