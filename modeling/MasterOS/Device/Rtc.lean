/-
# The clock behind two ports

The kernel reads the date one register at a time, while the clock runs on. It waits until no
update is under way, reads all registers, and does so again until it has read the same twice.
What it then has is a date that the clock has shown while the call ran, as long as that took
less than a minute; and if the seconds do not follow each other too fast, it is there after four
readings. The clock may count in binary or in decimal digits, and up to twelve or to twenty-four
hours.
-/

import MasterOS.Device.PortIo
import Mathlib.Data.Nat.ModEq
import Mathlib.Order.Monotone.Basic

namespace MasterOS.Rtc

open MasterOS.Device MasterOS.Device.PortProg

/-! ## The code -/

/-- `RTCTime`. -/
structure RTCTime where
  seconds : UInt8
  minutes : UInt8
  hours : UInt8
  day : UInt8
  month : UInt8
  year : UInt8
  deriving DecidableEq

/-- `rtc_read_reg`. -/
def rtcReadReg (reg : UInt8) : PortProg UInt8 := do
  outPortB 0x70 reg
  inPortB 0x71

/-- `bcd_to_bin`. -/
def bcdToBin (bcd : UInt8) : UInt8 := (bcd >>> 4) * 10 + (bcd &&& 0x0F)

/-- The loop in front of `rtc_read_raw`: whether it ends within that many polls. -/
def waitUpdate : ℕ → PortProg Bool
  | 0 => .ret false
  | polls + 1 => do
      let status ← rtcReadReg 0x0A
      if status &&& 0x80 ≠ 0 then waitUpdate polls else .ret true

/-- The registers in the order in which `rtc_read_raw` reads them. -/
def rtcFields : PortProg RTCTime := do
  let seconds ← rtcReadReg 0x00
  let minutes ← rtcReadReg 0x02
  let hours ← rtcReadReg 0x04
  let day ← rtcReadReg 0x07
  let month ← rtcReadReg 0x08
  let year ← rtcReadReg 0x09
  .ret ⟨seconds, minutes, hours, day, month, year⟩

/-- `rtc_read_raw`, with a bound on its polls. -/
def rtcReadRaw (polls : ℕ) : PortProg (Option RTCTime) := do
  let calm ← waitUpdate polls
  if calm then do
    let t ← rtcFields
    .ret (some t)
  else .ret none

/-- The loop of `rtc_read`, with a bound on its turns. -/
def rtcReadLoop (polls : ℕ) : (turns : ℕ) → RTCTime → PortProg (Option RTCTime)
  | 0, _ => .ret none
  | turns + 1, last => do
      match ← rtcReadRaw polls with
      | none => .ret none
      | some t =>
          if t.seconds ≠ last.seconds ∨ t.minutes ≠ last.minutes ∨ t.hours ≠ last.hours ∨
              t.day ≠ last.day ∨ t.month ≠ last.month ∨ t.year ≠ last.year then
            rtcReadLoop polls turns t
          else .ret (some t)

/-- The hours behind the loop of `rtc_read`. -/
def convertHours (statB hours : UInt8) : UInt8 :=
  if statB &&& 0x02 = 0 then
    let pm := hours &&& 0x80
    let hours := hours &&& 0x7F
    let hours := if statB &&& 0x04 = 0 then bcdToBin hours else hours
    let hours := if pm ≠ 0 ∧ hours < 12 then hours + 12 else hours
    if pm = 0 ∧ hours = 12 then 0 else hours
  else if statB &&& 0x04 = 0 then bcdToBin hours
  else hours

/-- What `rtc_read` makes of the registers. -/
def convert (statB : UInt8) (t : RTCTime) : RTCTime :=
  let hours := convertHours statB t.hours
  if statB &&& 0x04 = 0 then
    ⟨bcdToBin t.seconds, bcdToBin t.minutes, hours, bcdToBin t.day, bcdToBin t.month,
      bcdToBin t.year⟩
  else { t with hours := hours }

/-- `rtc_read`. -/
def rtcRead (polls turns : ℕ) : PortProg (Option RTCTime) := do
  match ← rtcReadRaw polls with
  | none => .ret none
  | some first =>
      match ← rtcReadLoop polls turns first with
      | none => .ret none
      | some t => do
          let statB ← rtcReadReg 0x0B
          .ret (some (convert statB t))

/-! ## The clock -/

/-- A date and a time of day. -/
structure Face where
  second : ℕ
  minute : ℕ
  hour : ℕ
  day : ℕ
  month : ℕ
  year : ℕ
  second_lt : second < 60
  minute_lt : minute < 60
  hour_lt : hour < 24
  day_lt : day < 32
  month_lt : month < 13
  year_lt : year < 100

/-- The face as `rtc_read` reports it. -/
def Face.toTime (f : Face) : RTCTime where
  seconds := .ofNat f.second
  minutes := .ofNat f.minute
  hours := .ofNat f.hour
  day := .ofNat f.day
  month := .ofNat f.month
  year := .ofNat f.year

/-- A number in a register: in binary, or with a digit in each half. -/
def shown (statB : UInt8) (n : ℕ) : UInt8 :=
  if statB &&& 0x04 = 0 then .ofNat (16 * (n / 10) + n % 10) else .ofNat n

/-- The hour in its register: up to twelve with a bit for the afternoon, or up to 24. -/
def shownHour (statB : UInt8) (hour : ℕ) : UInt8 :=
  if statB &&& 0x02 = 0 then
    shown statB (if hour % 12 = 0 then 12 else hour % 12) ||| (if 12 ≤ hour then 0x80 else 0)
  else shown statB hour

/-- A clock: what it shows after so many seconds, how many have gone by at an access to its
ports, when it is about to update its registers, and what its control register holds. -/
structure Clock where
  face : ℕ → Face
  passed : ℕ → ℕ
  updating : ℕ → Bool
  statB : UInt8
  ticks : ∀ k, (face (k + 1)).second = ((face k).second + 1) % 60
  mono : Monotone passed

/-- The register that is selected, and the number of accesses so far. -/
structure Ports where
  index : UInt8
  accesses : ℕ

/-- A register at an access. -/
def Clock.register (c : Clock) (reg : UInt8) (n : ℕ) : UInt8 :=
  let f := c.face (c.passed n)
  match reg.toNat with
  | 0x00 => shown c.statB f.second
  | 0x02 => shown c.statB f.minute
  | 0x04 => shownHour c.statB f.hour
  | 0x07 => shown c.statB f.day
  | 0x08 => shown c.statB f.month
  | 0x09 => shown c.statB f.year
  | 0x0A => if c.updating n then 0xA6 else 0x26
  | 0x0B => c.statB
  | _ => 0

/-- The ports of the clock: one selects a register and the other shows it. -/
def clockDevice (c : Clock) : PortDevice Ports where
  inB s port :=
    (if port = 0x71 then c.register s.index s.accesses else 0,
      { s with accesses := s.accesses + 1 })
  inW s _ := (0, { s with accesses := s.accesses + 1 })
  outB s port value :=
    ⟨if port = 0x70 then value &&& 0x7F else s.index, s.accesses + 1⟩
  outW s _ _ := { s with accesses := s.accesses + 1 }

/-! ## Reading -/

/-- The registers as six reads that begin at an access find them. -/
def Clock.fieldsAt (c : Clock) (n : ℕ) : RTCTime where
  seconds := c.register 0x00 (n + 1)
  minutes := c.register 0x02 (n + 3)
  hours := c.register 0x04 (n + 5)
  day := c.register 0x07 (n + 7)
  month := c.register 0x08 (n + 9)
  year := c.register 0x09 (n + 11)

/-- The registers of a face. -/
def Face.registers (statB : UInt8) (f : Face) : RTCTime where
  seconds := shown statB f.second
  minutes := shown statB f.minute
  hours := shownHour statB f.hour
  day := shown statB f.day
  month := shown statB f.month
  year := shown statB f.year

section Reading

variable (c : Clock)

theorem run_rtcReadReg {reg : UInt8} (hreg : reg &&& 0x7F = reg) (s : Ports) :
    (rtcReadReg reg).run (clockDevice c) s =
      (c.register reg (s.accesses + 1), ⟨reg, s.accesses + 2⟩) := by
  rw [rtcReadReg, run_bind, run_outPortB, run_inPortB]
  simp only [clockDevice, hreg, if_true]

theorem run_rtcFields (s : Ports) : rtcFields.run (clockDevice c) s =
    (c.fieldsAt s.accesses, ⟨0x09, s.accesses + 12⟩) := by
  rw [rtcFields, run_bind_of_run _ _ (run_rtcReadReg c rfl s),
    run_bind_of_run _ _ (run_rtcReadReg c rfl _), run_bind_of_run _ _ (run_rtcReadReg c rfl _),
    run_bind_of_run _ _ (run_rtcReadReg c rfl _), run_bind_of_run _ _ (run_rtcReadReg c rfl _),
    run_bind_of_run _ _ (run_rtcReadReg c rfl _), run_ret]
  rfl

/-- The wait ends when no update is under way. -/
theorem run_waitUpdate (polls : ℕ) (s : Ports) :
    ∃ calm s', (waitUpdate polls).run (clockDevice c) s = (calm, s') ∧
      s.accesses ≤ s'.accesses ∧ s'.accesses ≤ s.accesses + 2 * polls ∧
      ((∃ j < polls, c.updating (s.accesses + 2 * j + 1) = false) → calm = true) := by
  induction polls generalizing s with
  | zero => exact ⟨false, s, rfl, le_rfl, le_rfl, fun ⟨j, hj, _⟩ => absurd hj (Nat.not_lt_zero j)⟩
  | succ polls ih =>
      have hstatus : c.register 0x0A (s.accesses + 1) =
          if c.updating (s.accesses + 1) then 0xA6 else 0x26 := rfl
      rw [waitUpdate, run_bind_of_run _ _ (run_rtcReadReg c rfl s), hstatus]
      cases hupdating : c.updating (s.accesses + 1) with
      | false =>
          exact ⟨true, _, rfl, Nat.le_add_right _ 2, Nat.add_le_add_left (by omega) _, fun _ => rfl⟩
      | true =>
          obtain ⟨calm, s', hrun, hle, hge, hcalm⟩ := ih ⟨0x0A, s.accesses + 2⟩
          refine ⟨calm, s', hrun, ?_, ?_, fun ⟨j, hj, hnot⟩ => hcalm ?_⟩
          · exact (Nat.le_add_right _ 2).trans hle
          · dsimp only at hge
            omega
          · rcases j with _ | j
            · rw [Nat.mul_zero, Nat.add_zero, hupdating] at hnot
              cases hnot
            · refine ⟨j, by omega, ?_⟩
              rw [← hnot]
              congr 1
              dsimp only
              omega

/-- A reading is of the registers at some time. -/
theorem run_rtcReadRaw (polls : ℕ) (s : Ports) :
    ∃ result s', (rtcReadRaw polls).run (clockDevice c) s = (result, s') ∧
      (∀ t, result = some t → ∃ n, s.accesses ≤ n ∧ n ≤ s.accesses + 2 * polls ∧
        t = c.fieldsAt n ∧ s'.accesses = n + 12) ∧
      ((∃ j < polls, c.updating (s.accesses + 2 * j + 1) = false) → result.isSome) := by
  obtain ⟨calm, s₁, hwait, hle, hge, hcalm⟩ := run_waitUpdate c polls s
  rw [rtcReadRaw, run_bind_of_run _ _ hwait]
  cases calm with
  | false =>
      exact ⟨none, s₁, rfl, fun t ht => (by cases ht), fun h => absurd (hcalm h) (by decide)⟩
  | true =>
      rw [if_pos rfl, run_bind_of_run _ _ (run_rtcFields c s₁), run_ret]
      refine ⟨_, _, rfl, fun t ht => ⟨s₁.accesses, hle, hge, ?_, rfl⟩, fun _ => rfl⟩
      exact (Option.some.inj ht).symm

end Reading

/-! ## What the registers say -/

theorem bcdToBin_digits {n : ℕ} (h : n < 100) :
    bcdToBin (.ofNat (16 * (n / 10) + n % 10)) = .ofNat n := by
  have hall : ∀ n < 100, bcdToBin (.ofNat (16 * (n / 10) + n % 10)) = .ofNat n := by
    decide +kernel
  exact hall n h

theorem convertHours_shownHour (statB : UInt8) {hour : ℕ} (h : hour < 24) :
    convertHours statB (shownHour statB hour) = .ofNat hour := by
  have hdigits : ∀ hour < 24,
      (let shown := UInt8.ofNat (16 * ((if hour % 12 = 0 then 12 else hour % 12) / 10) +
          (if hour % 12 = 0 then 12 else hour % 12) % 10) ||| (if 12 ≤ hour then 0x80 else 0)
        let hours := bcdToBin (shown &&& 0x7F)
        let hours := if shown &&& 0x80 ≠ 0 ∧ hours < 12 then hours + 12 else hours
        if shown &&& 0x80 = 0 ∧ hours = 12 then 0 else hours) = UInt8.ofNat hour := by
    decide +kernel
  have hbinary : ∀ hour < 24,
      (let shown := UInt8.ofNat (if hour % 12 = 0 then 12 else hour % 12) |||
          (if 12 ≤ hour then 0x80 else 0)
        let hours := shown &&& 0x7F
        let hours := if shown &&& 0x80 ≠ 0 ∧ hours < 12 then hours + 12 else hours
        if shown &&& 0x80 = 0 ∧ hours = 12 then 0 else hours) = UInt8.ofNat hour := by
    decide +kernel
  unfold convertHours shownHour shown
  by_cases hhalf : statB &&& 0x02 = 0
  · by_cases hbcd : statB &&& 0x04 = 0
    · simp only [hhalf, hbcd, if_true]
      exact hdigits hour h
    · simp only [hhalf, hbcd, if_true, if_false]
      exact hbinary hour h
  · by_cases hbcd : statB &&& 0x04 = 0
    · simp only [hhalf, hbcd, if_true, if_false]
      exact bcdToBin_digits (by omega)
    · simp only [hhalf, hbcd, if_false]

/-- **Every format is read for what it says.** -/
theorem convert_registers (statB : UInt8) (f : Face) :
    convert statB (f.registers statB) = f.toTime := by
  have hhours := convertHours_shownHour statB f.hour_lt
  have hlt (n m : ℕ) (h : n < m) (hm : m ≤ 100) : n < 100 := lt_of_lt_of_le h hm
  unfold convert Face.registers Face.toTime
  simp only [hhours]
  by_cases hbcd : statB &&& 0x04 = 0
  · simp only [shown, hbcd, if_true, bcdToBin_digits (hlt _ _ f.second_lt (by decide)),
      bcdToBin_digits (hlt _ _ f.minute_lt (by decide)),
      bcdToBin_digits (hlt _ _ f.day_lt (by decide)),
      bcdToBin_digits (hlt _ _ f.month_lt (by decide)), bcdToBin_digits f.year_lt]
  · simp only [shown, hbcd, if_false]

/-- A register tells the numbers below a hundred apart. -/
theorem shown_injective {statB : UInt8} {n m : ℕ} (hn : n < 100) (hm : m < 100)
    (h : shown statB n = shown statB m) : n = m := by
  have hread (k : ℕ) (hk : k < 100) :
      (if statB &&& 0x04 = 0 then bcdToBin (shown statB k) else shown statB k) = .ofNat k := by
    unfold shown
    split_ifs
    · exact bcdToBin_digits hk
    · rfl
  have hsame : UInt8.ofNat n = UInt8.ofNat m := by
    rw [← hread n hn, ← hread m hm, h]
  have htoNat := congrArg UInt8.toNat hsame
  rwa [UInt8.toNat_ofNat_of_lt' (show n < 2 ^ 8 by omega),
    UInt8.toNat_ofNat_of_lt' (show m < 2 ^ 8 by omega)] at htoNat

/-! ## Two readings that agree -/

section Agree

variable (c : Clock)

theorem second_add (k i : ℕ) : (c.face (k + i)).second = ((c.face k).second + i) % 60 := by
  induction i with
  | zero => exact (Nat.mod_eq_of_lt (c.face k).second_lt).symm
  | succ i ih =>
      rw [← Nat.add_assoc, c.ticks, ih]
      omega

/-- While no second passes the registers show one face. -/
theorem fieldsAt_of_still {n : ℕ} (h : c.passed (n + 11) = c.passed (n + 1)) :
    c.fieldsAt n = (c.face (c.passed (n + 1))).registers c.statB := by
  have hstill {m : ℕ} (hlow : n + 1 ≤ m) (hhigh : m ≤ n + 11) : c.passed m = c.passed (n + 1) :=
    le_antisymm (h ▸ c.mono hhigh) (c.mono hlow)
  have h3 := hstill (m := n + 3) (by omega) (by omega)
  have h5 := hstill (m := n + 5) (by omega) (by omega)
  have h7 := hstill (m := n + 7) (by omega) (by omega)
  have h9 := hstill (m := n + 9) (by omega) (by omega)
  unfold Clock.fieldsAt Clock.register Face.registers
  simp only [h3, h5, h7, h9, h]
  rfl

/-- **A date that is read twice was shown**, if it took less than a minute: no second went by
between the first registers of the two readings. -/
theorem fieldsAt_of_agree {n m : ℕ} (hnm : n + 12 ≤ m)
    (hagree : (c.fieldsAt m).seconds = (c.fieldsAt n).seconds)
    (hfast : c.passed (m + 1) < c.passed (n + 1) + 60) :
    c.fieldsAt n = (c.face (c.passed (n + 1))).registers c.statB := by
  have hle : c.passed (n + 1) ≤ c.passed (m + 1) := c.mono (by omega)
  have hsecond : (c.face (c.passed (m + 1))).second = (c.face (c.passed (n + 1))).second :=
    shown_injective (lt_trans (c.face _).second_lt (by decide))
      (lt_trans (c.face _).second_lt (by decide)) hagree
  have hstill : c.passed (m + 1) = c.passed (n + 1) := by
    obtain ⟨i, hi⟩ := Nat.exists_eq_add_of_le hle
    rw [hi, second_add] at hsecond
    have hlt := (c.face (c.passed (n + 1))).second_lt
    omega
  exact fieldsAt_of_still c
    (le_antisymm (hstill ▸ c.mono (by omega)) (c.mono (by omega)))

/-- The readings differ in a register, or they are the same. -/
theorem differs_iff {t last : RTCTime} :
    (t.seconds ≠ last.seconds ∨ t.minutes ≠ last.minutes ∨ t.hours ≠ last.hours ∨
      t.day ≠ last.day ∨ t.month ≠ last.month ∨ t.year ≠ last.year) ↔ t ≠ last := by
  obtain ⟨s, m, h, d, mo, y⟩ := t
  obtain ⟨s', m', h', d', mo', y'⟩ := last
  simp only [ne_eq, RTCTime.mk.injEq, not_and_or]

/-- One turn of the loop. -/
theorem run_rtcReadLoop_succ (polls turns : ℕ) (last : RTCTime) {s s₁ : Ports} {t : RTCTime}
    (hread : (rtcReadRaw polls).run (clockDevice c) s = (some t, s₁)) :
    (rtcReadLoop polls (turns + 1) last).run (clockDevice c) s =
      if t = last then (some t, s₁) else (rtcReadLoop polls turns t).run (clockDevice c) s₁ := by
  rw [rtcReadLoop, run_bind_of_run _ _ hread]
  dsimp only
  by_cases hsame : t = last
  · rw [if_pos hsame, if_neg fun h => differs_iff.mp h hsame, run_ret]
  · rw [if_neg hsame, if_pos (differs_iff.mpr hsame)]

/-- What the loop leaves was shown. -/
theorem run_rtcReadLoop_shows {polls turns n : ℕ} {s s' : Ports} {t : RTCTime}
    (hs : n + 12 ≤ s.accesses)
    (h : (rtcReadLoop polls turns (c.fieldsAt n)).run (clockDevice c) s = (some t, s'))
    (hfast : c.passed s'.accesses < c.passed (n + 1) + 60) :
    s.accesses ≤ s'.accesses ∧ ∃ m, n ≤ m ∧ m + 12 ≤ s'.accesses ∧
      t = (c.face (c.passed (m + 1))).registers c.statB := by
  induction turns generalizing n s with
  | zero => cases h
  | succ turns ih =>
      obtain ⟨result, s₁, hread, hresult, -⟩ := run_rtcReadRaw c polls s
      cases result with
      | none =>
          rw [rtcReadLoop, run_bind_of_run _ _ hread] at h
          cases h
      | some t₁ =>
          obtain ⟨m, hlow, -, rfl, hend⟩ := hresult t₁ rfl
          rw [run_rtcReadLoop_succ c polls turns _ hread] at h
          split_ifs at h with hsame
          · obtain ⟨ht, rfl⟩ := Prod.mk.inj h
            obtain rfl := Option.some.inj ht
            refine ⟨by omega, n, le_rfl, by omega, ?_⟩
            rw [hsame]
            have hle : c.passed (m + 1) ≤ c.passed s₁.accesses := c.mono (by omega)
            exact fieldsAt_of_agree c (by omega) (congrArg RTCTime.seconds hsame) (by omega)
          · have hle : c.passed (n + 1) ≤ c.passed (m + 1) := c.mono (by omega)
            obtain ⟨hgrows, k, hk, hkend, rfl⟩ := ih (n := m) (by omega) h (by omega)
            exact ⟨by omega, k, by omega, hkend, rfl⟩

/-- **`rtc_read` returns a date that the clock has shown.** However the seconds fall between its
accesses, a call of less than a minute reports one moment of that minute, in every format of the
registers. -/
theorem rtcRead_shows {polls turns : ℕ} {s s' : Ports} {t : RTCTime}
    (h : (rtcRead polls turns).run (clockDevice c) s = (some t, s'))
    (hfast : c.passed s'.accesses < c.passed s.accesses + 60) :
    ∃ k, c.passed s.accesses ≤ k ∧ k ≤ c.passed s'.accesses ∧ t = (c.face k).toTime := by
  obtain ⟨result, s₁, hread, hresult, -⟩ := run_rtcReadRaw c polls s
  rw [rtcRead, run_bind_of_run _ _ hread] at h
  cases result with
  | none => cases h
  | some first =>
      obtain ⟨n, hlow, -, rfl, hend⟩ := hresult first rfl
      dsimp only at h
      rcases hloop : (rtcReadLoop polls turns (c.fieldsAt n)).run (clockDevice c) s₁ with
        ⟨_ | t₁, s₂⟩
      · rw [run_bind_of_run _ _ hloop] at h
        cases h
      · rw [run_bind_of_run _ _ hloop] at h
        dsimp only at h
        rw [run_bind_of_run _ _ (run_rtcReadReg c rfl s₂), run_ret] at h
        obtain ⟨ht, rfl⟩ := Prod.mk.inj h
        dsimp only at hfast ⊢
        have hle : c.passed s₂.accesses ≤ c.passed (s₂.accesses + 2) := c.mono (by omega)
        have hbegin : c.passed s.accesses ≤ c.passed (n + 1) := c.mono (by omega)
        obtain ⟨-, m, hnm, hm, rfl⟩ := run_rtcReadLoop_shows c (by omega) hloop (by omega)
        refine ⟨c.passed (m + 1), c.mono (by omega), c.mono (by omega), ?_⟩
        rw [← Option.some.inj ht]
        exact convert_registers c.statB _

end Agree

/-- A clock on which a minute ends while the second register of a reading is selected. -/
def minuteClock : Clock where
  face k := ⟨(59 + k) % 60, (59 + k) / 60 % 60, 0, 1, 1, 0, Nat.mod_lt _ (by decide),
    Nat.mod_lt _ (by decide), by decide, by decide, by decide, by decide⟩
  passed n := if n < 5 then 0 else 1
  updating _ := false
  statB := 0x00
  ticks k := by
    dsimp only
    omega
  mono n m hle := by
    dsimp only
    split_ifs <;> omega

theorem minuteClock_passed_le (n : ℕ) : minuteClock.passed n ≤ 1 := by
  show (if n < 5 then 0 else 1) ≤ 1
  split_ifs <;> omega

/-- The first reading of that clock is of no time, and the call returns the new minute. -/
theorem rtcRead_shows_minuteClock : minuteClock.fieldsAt 2 = ⟨0x59, 0x01, 0x12, 0x01, 0x01, 0⟩ ∧
    ∃ k ≤ 1, (⟨0, 1, 0, 1, 1, 0⟩ : RTCTime) = (minuteClock.face k).toTime := by
  have hrun : ((rtcRead 1 3).run (clockDevice minuteClock) ⟨0, 0⟩).1 =
      some ⟨0, 1, 0, 1, 1, 0⟩ := by decide +kernel
  obtain ⟨k, -, hk, ht⟩ := rtcRead_shows minuteClock (s := ⟨0, 0⟩) (Prod.ext hrun rfl)
    (lt_of_le_of_lt (minuteClock_passed_le _) (by decide))
  exact ⟨by decide +kernel, k, hk.trans (minuteClock_passed_le _), ht⟩

section Ends

variable (c : Clock)

/-! ## Readings come to an end -/

/-- **`rtc_read` returns after four readings at the latest**, if the clock is never about to
update for long and no two seconds go by while it reads. -/
theorem rtcRead_returns {polls turns : ℕ} (hturns : 3 ≤ turns)
    (hcalm : ∀ n, ∃ j < polls, c.updating (n + 2 * j) = false)
    (hrare : ∀ n, c.passed (n + (8 * polls + 48)) ≤ c.passed n + 1) (s : Ports) :
    ∃ t s', (rtcRead polls turns).run (clockDevice c) s = (some t, s') := by
  have hraw (s : Ports) : ∃ n s', s.accesses ≤ n ∧ n ≤ s.accesses + 2 * polls ∧
      (rtcReadRaw polls).run (clockDevice c) s = (some (c.fieldsAt n), s') ∧
        s'.accesses = n + 12 := by
    obtain ⟨result, s', hread, hresult, hsome⟩ := run_rtcReadRaw c polls s
    obtain ⟨j, hj, hnot⟩ := hcalm (s.accesses + 1)
    obtain ⟨t, rfl⟩ := Option.isSome_iff_exists.mp
      (hsome ⟨j, hj, by rwa [Nat.add_right_comm]⟩)
    obtain ⟨n, hlow, hhigh, rfl, hend⟩ := hresult t rfl
    exact ⟨n, s', hlow, hhigh, hread, hend⟩
  have hsame {n m : ℕ} (hnm : n ≤ m) (hstill : c.passed (m + 11) = c.passed (n + 1)) :
      c.fieldsAt m = c.fieldsAt n := by
    have hm : c.passed (m + 1) = c.passed (n + 1) :=
      le_antisymm (hstill ▸ c.mono (by omega)) (c.mono (by omega))
    have hn : c.passed (n + 11) = c.passed (n + 1) :=
      le_antisymm (hstill ▸ c.mono (by omega)) (c.mono (by omega))
    rw [fieldsAt_of_still c hn, fieldsAt_of_still c (hstill.trans hm.symm), hm]
  obtain ⟨turns, rfl⟩ : ∃ k, turns = k + 3 := ⟨turns - 3, by omega⟩
  obtain ⟨n₁, s₁, hlow₁, hhigh₁, hread₁, hend₁⟩ := hraw s
  obtain ⟨n₂, s₂, hlow₂, hhigh₂, hread₂, hend₂⟩ := hraw s₁
  obtain ⟨n₃, s₃, hlow₃, hhigh₃, hread₃, hend₃⟩ := hraw s₂
  obtain ⟨n₄, s₄, hlow₄, hhigh₄, hread₄, hend₄⟩ := hraw s₃
  have hloop : ∃ t s', (rtcReadLoop polls (turns + 3) (c.fieldsAt n₁)).run (clockDevice c) s₁ =
      (some t, s') := by
    rw [run_rtcReadLoop_succ c polls (turns + 2) _ hread₂]
    split_ifs with h₂
    · exact ⟨_, _, rfl⟩
    · rw [run_rtcReadLoop_succ c polls (turns + 1) _ hread₃]
      split_ifs with h₃
      · exact ⟨_, _, rfl⟩
      · rw [run_rtcReadLoop_succ c polls turns _ hread₄, if_pos]
        · exact ⟨_, _, rfl⟩
        · -- the second that went by in the first two readings is the only one
          have hrareAll := hrare (n₁ + 1)
          have hend : c.passed (n₄ + 11) ≤ c.passed (n₁ + 1 + (8 * polls + 48)) :=
            c.mono (by omega)
          have hfirst : c.passed (n₁ + 1) < c.passed (n₂ + 11) :=
            lt_of_le_of_ne (c.mono (by omega)) fun heq => h₂ (hsame (by omega) heq.symm)
          have hmiddle : c.passed (n₂ + 11) ≤ c.passed (n₃ + 1) := c.mono (by omega)
          have hlast : c.passed (n₃ + 1) ≤ c.passed (n₄ + 11) := c.mono (by omega)
          exact hsame (by omega) (by omega)
  obtain ⟨t, s', hloop⟩ := hloop
  rw [rtcRead, run_bind_of_run _ _ hread₁]
  dsimp only
  rw [run_bind_of_run _ _ hloop]
  dsimp only
  rw [run_bind_of_run _ _ (run_rtcReadReg c rfl s'), run_ret]
  exact ⟨_, _, rfl⟩

end Ends

/-- The clock on which the minute ends is read within four readings. -/
theorem rtcRead_returns_minuteClock :
    ∃ t s', (rtcRead 1 3).run (clockDevice minuteClock) ⟨0, 0⟩ = (some t, s') := by
  exact rtcRead_returns minuteClock le_rfl (fun n => ⟨0, Nat.one_pos, rfl⟩)
    (fun n => (minuteClock_passed_le _).trans (Nat.le_add_left 1 _)) _

end MasterOS.Rtc
