/-
# Finding the drive

`ata_init` selects the slave, and the master when there is no slave; what it selects is there,
and the accesses go to it. On an empty bus it fails, and so does every access.
-/

import MasterOS.Device.Transfers

namespace MasterOS.Pio

open MasterOS.Device MasterOS.Device.PortProg
open MasterOS.Ata (Bsy Drq Err ataDriveHead ataCommand ataMaster ataSlave setUp setUpRead)

section Probe

variable {t : Timing} {b : Bus}

/-- Polls change nothing on a bus that is not busy, except how long it stays quiet. -/
theorem tick_listens (hlistens : b.Listens) :
    b.tick.drives = b.drives ∧ b.tick.slave = b.slave ∧ b.tick.Listens := by
  rw [b.tick_of_free hlistens.1]
  exact ⟨rfl, rfl, rfl, hlistens.2⟩

theorem run_readStatus (hlistens : b.Listens) (n : ℕ) :
    ∃ b', (readStatus n).run (busDevice t) b = ((), b') ∧ b'.drives = b.drives ∧
      b'.slave = b.slave ∧ b'.Listens := by
  induction n generalizing b with
  | zero => exact ⟨b, rfl, rfl, rfl, hlistens⟩
  | succ n ih =>
      obtain ⟨hdrives, hslave, hstill⟩ := tick_listens hlistens
      obtain ⟨b', hrun, hdrives', hslave', hlistens'⟩ := ih hstill
      exact ⟨b', hrun, hdrives'.trans hdrives, hslave'.trans hslave, hlistens'⟩

/-- A drive that has nothing to do shows that it is there. -/
theorem status_present {p : Platter} (hp : b.selected = some p) (hlistens : b.Listens) :
    b.status t ≠ 0xFF ∧ b.status t ≠ 0x00 := by
  have hstatus : b.status t = if 0 < b.quiet then 0x50 else b.phase.status := by
    rw [Bus.status, hp]
    exact if_neg (by rw [hlistens.1]; decide)
  rw [hstatus]
  by_cases hquiet : 0 < b.quiet
  · rw [if_pos hquiet]
    decide
  · rw [if_neg hquiet]
    rcases hlistens.2 with hidle | hfailed
    · rw [hidle]
      decide
    · rw [hfailed]
      decide

/-- The probe leaves its drive selected, and tells if it is there. -/
theorem run_ataProbe (hlistens : b.Listens)
    (hfloating : t.floating = 0xFF ∨ t.floating = 0x00) (head : UInt8) :
    ∃ b', (ataProbe head).run (busDevice t) b =
        (if b.drives (isSlave head) = none then -1 else 0, b') ∧
      b'.drives = b.drives ∧ b'.slave = isSlave head ∧ b'.Listens := by
  have hout : b.outB t ataDriveHead head = b.setRegister ataDriveHead head := by
    rw [Bus.outB, if_pos hlistens, if_neg (by decide)]
  have hhead : (b.setRegister ataDriveHead head).slave = isSlave head := by
    show isSlave (Function.update b.registers ataDriveHead head ataDriveHead) = isSlave head
    rw [Function.update_self]
  obtain ⟨b', hpolls, hdrives, hslave, hlistens'⟩ :=
    run_readStatus (t := t) (b := b.setRegister ataDriveHead head) hlistens 4
  obtain ⟨hdrives', hslave', hstill⟩ := tick_listens hlistens'
  refine ⟨b'.tick, ?_, hdrives'.trans hdrives, hslave'.trans (hslave.trans hhead), hstill⟩
  rw [ataProbe, run_bind, run_outPortB, busDevice_outB, hout, run_bind_of_run _ _ hpolls,
    run_bind, run_inPortB, busDevice_inB, inB_ataStatus, run_ret]
  refine Prod.ext ?_ rfl
  have hselected : b'.selected = b.drives (isSlave head) := by
    rw [Bus.selected, hslave, hhead, hdrives]
    rfl
  rw [← hselected]
  cases hdrive : b'.selected with
  | none =>
      have hstatus : b'.status t = t.floating := by rw [Bus.status, hdrive]
      rw [if_pos rfl]
      exact if_pos (by rwa [← hstatus] at hfloating)
  | some p =>
      obtain ⟨hff, hzero⟩ := status_present (t := t) hdrive hlistens'
      have hthere : ¬ (b'.status t = 0xFF ∨ b'.status t = 0x00) := fun h => h.elim hff hzero
      rw [if_neg (Option.some_ne_none p)]
      exact if_neg hthere

/-! ## An empty bus -/

/-- No drive is there. -/
def Empty (b : Bus) : Prop := ∀ slave, b.drives slave = none

theorem Empty.tick (hempty : Empty b) : Empty b.tick := by
  intro slave
  rw [Bus.tick]
  split_ifs <;> exact hempty slave

/-- Nobody drives the status. -/
theorem run_poll_empty (hempty : Empty b) :
    (inPortB ataStatus).run (busDevice t) b = (t.floating, b.tick) := by
  rw [run_inPortB, busDevice_inB, inB_ataStatus, Bus.status, Bus.selected, hempty]

/-- A bus that floats high is always busy. -/
theorem run_ataWaitBsy_high (hhigh : t.floating = 0xFF) (hempty : Empty b) :
    (ataWaitBsy.run (busDevice t) b).1 = -1 := by
  have hloop (timeout : ℕ) : ∀ b, Empty b →
      ((waitBsyLoop timeout).run (busDevice t) b).1 = -1 := by
    induction timeout with
    | zero =>
        intro b hempty
        rw [waitBsyLoop, run_bind_of_run _ _ (run_poll_empty hempty), hhigh, if_pos (by decide)]
        rfl
    | succ timeout ih =>
        intro b hempty
        rw [waitBsyLoop, run_bind_of_run _ _ (run_poll_empty hempty), hhigh, if_pos (by decide)]
        exact ih b.tick hempty.tick
  rw [ataWaitBsy, run_bind, hloop _ b hempty]
  rfl

/-- One that floats low is never busy. -/
theorem run_ataWaitBsy_low (hlow : t.floating = 0x00) (hempty : Empty b) :
    ataWaitBsy.run (busDevice t) b = (0, b.tick) := by
  have hfirst : (waitBsyLoop 100000).run (busDevice t) b = (100000, b.tick) := by
    rw [waitBsyLoop, run_bind_of_run _ _ (run_poll_empty hempty), hlow, if_neg (by decide)]
    rfl
  rw [ataWaitBsy, run_bind_of_run _ _ hfirst, if_pos (by decide), run_ret]

/-- But it never asks for data. -/
theorem run_ataWaitDrq_low (hlow : t.floating = 0x00) (hempty : Empty b) :
    (ataWaitDrq.run (busDevice t) b).1 = -1 := by
  have hloop (timeout : ℕ) : ∀ b, Empty b →
      ((waitDrqLoop timeout).run (busDevice t) b).1 = -1 := by
    induction timeout with
    | zero => exact fun _ _ => rfl
    | succ timeout ih =>
        intro b hempty
        rw [waitDrqLoop, run_bind_of_run _ _ (run_poll_empty hempty), hlow, if_neg (by decide),
          if_neg (by decide)]
        exact ih b.tick hempty.tick
  exact hloop _ b hempty

/-- What is written to the ports of an empty bus reaches nobody. -/
theorem run_outAll_empty (hempty : Empty b) (outs : List (ℕ × UInt8)) :
    ∃ b', (outAll outs).run (busDevice t) b = ((), b') ∧ Empty b' := by
  have hout (b : Bus) (hempty : Empty b) (port : ℕ) (value : UInt8) :
      Empty (b.outB t port value) := by
    have hselected : b.selected = none := hempty _
    rw [Bus.outB, Bus.command, hselected]
    split_ifs <;> exact hempty
  rw [run_outAll]
  refine ⟨_, rfl, ?_⟩
  induction outs generalizing b with
  | nil => exact hempty
  | cons out rest ih => exact ih (hout b hempty out.1 out.2)

/-- Without a drive every access fails, and the buffer of a read is left as it was. -/
theorem accesses_fail_empty (hfloating : t.floating = 0xFF ∨ t.floating = 0x00)
    (hempty : Empty b) (ataDrive : UInt8) (lba : UInt32) {count : UInt8} (hcount : count ≠ 0)
    (buf : ℕ → UInt8) :
    ((ataRead ataDrive lba count buf).run (busDevice t) b).1 = (-1, buf) ∧
      ((ataWrite ataDrive lba count buf).run (busDevice t) b).1 = -1 := by
  have hpos : count.toNat ≠ 0 := fun hzero => hcount (UInt8.toNat_inj.mp hzero)
  obtain ⟨n, hn⟩ := Nat.exists_eq_succ_of_ne_zero hpos
  rcases hfloating with hhigh | hlow
  · have hbusy := run_ataWaitBsy_high hhigh hempty
    rw [ataRead, ataWrite, run_bind, run_bind, hbusy, if_pos (by decide), if_pos (by decide)]
    exact ⟨rfl, rfl⟩
  · obtain ⟨b₁, hread, hempty₁⟩ :=
      run_outAll_empty (t := t) hempty.tick (setUpRead ataDrive lba count)
    obtain ⟨b₂, hwrite, hempty₂⟩ := run_outAll_empty (t := t) hempty.tick (setUp ataDrive lba count)
    constructor
    · rw [ataRead, run_bind_of_run _ _ (run_ataWaitBsy_low hlow hempty), if_neg (by decide),
        run_bind_of_run _ _ hread, hn, readLoop,
        run_bind_of_run _ _ (run_ataWaitBsy_low hlow hempty₁), if_neg (by decide), run_bind,
        run_ataWaitDrq_low hlow hempty₁.tick, if_pos (by decide)]
      rfl
    · rw [ataWrite, run_bind_of_run _ _ (run_ataWaitBsy_low hlow hempty), if_neg (by decide),
        run_bind_of_run _ _ hwrite, hn, writeLoop,
        run_bind_of_run _ _ (run_ataWaitBsy_low hlow hempty₂), if_neg (by decide), run_bind,
        run_ataWaitDrq_low hlow hempty₂.tick, if_pos (by decide)]
      rfl

/-- What `ata_init` finds. -/
theorem run_ataInit (hlistens : b.Listens) (hfloating : t.floating = 0xFF ∨ t.floating = 0x00)
    (ataDrive : UInt8) :
    ∃ r found b', (ataInit ataDrive).run (busDevice t) b = ((r, found), b') ∧
      b'.drives = b.drives ∧
      ((∃ p, (b.drives true).or (b.drives false) = some p ∧ r = 0 ∧ Attached found p b') ∨
        ((b.drives true).or (b.drives false) = none ∧ r = -1 ∧ found = ataDrive ∧ Empty b')) := by
  have hslave : isSlave ataSlave = true := by decide
  have hmaster : isSlave ataMaster = false := by decide
  obtain ⟨b₁, hprobe, hdrives, hselected, hlistens₁⟩ := run_ataProbe hlistens hfloating ataSlave
  obtain ⟨b₂, hprobe₂, hdrives₂, hselected₂, hlistens₂⟩ :=
    run_ataProbe hlistens₁ hfloating ataMaster
  rw [hslave] at hprobe
  rw [hmaster, hdrives] at hprobe₂
  have hattached {head : UInt8} {p : Platter} {b' : Bus}
      (hhead : head = ataMaster ∨ head = ataSlave) (hthere : b'.drives (isSlave head) = some p)
      (hselected : b'.slave = isSlave head) (hlistens : b'.Listens) : Attached head p b' :=
    ⟨hhead, hthere, hselected, hlistens.2, by rw [hlistens.1]; decide⟩
  cases hs : b.drives true with
  | some p =>
      rw [hs, if_neg (Option.some_ne_none p)] at hprobe
      rw [ataInit, run_bind_of_run _ _ hprobe, if_pos rfl, run_ret]
      exact ⟨0, ataSlave, b₁, rfl, hdrives, Or.inl ⟨p, rfl, rfl, hattached (Or.inr rfl)
        (by rw [hdrives, hslave, hs]) hselected hlistens₁⟩⟩
  | none =>
      rw [hs, if_pos rfl] at hprobe
      rw [ataInit, run_bind_of_run _ _ hprobe, if_neg (by decide), run_bind_of_run _ _ hprobe₂,
        run_ret]
      cases hm : b.drives false with
      | some p =>
          rw [if_neg (Option.some_ne_none p), if_pos rfl]
          exact ⟨0, ataMaster, b₂, rfl, hdrives₂.trans hdrives, Or.inl ⟨p, rfl, rfl,
            hattached (Or.inl rfl) (by rw [hdrives₂, hdrives, hmaster, hm]) hselected₂ hlistens₂⟩⟩
      | none =>
          have hempty : Empty b₂ := by
            intro slave
            rw [hdrives₂, hdrives]
            cases slave with
            | true => exact hs
            | false => exact hm
          rw [if_pos rfl, if_neg (by decide)]
          exact ⟨-1, ataDrive, b₂, rfl, hdrives₂.trans hdrives, Or.inr ⟨rfl, rfl, rfl, hempty⟩⟩

/-- **`ata_init` finds the slave, or else the master**, and the accesses then go to the drive it
has found. When it fails, there is no drive and every access fails. -/
theorem ataInit_finds (hlistens : b.Listens)
    (hfloating : t.floating = 0xFF ∨ t.floating = 0x00) (ataDrive : UInt8) :
    ∃ r found b', (ataInit ataDrive).run (busDevice t) b = ((r, found), b') ∧
      b'.drives = b.drives ∧
      ((∃ p, (b.drives true).or (b.drives false) = some p ∧ r = 0 ∧ Attached found p b') ∨
        ((b.drives true).or (b.drives false) = none ∧ r = -1 ∧ found = ataDrive ∧
          ∀ (lba : UInt32) (count : UInt8) (buf : ℕ → UInt8), count ≠ 0 →
            ((ataRead found lba count buf).run (busDevice t) b').1 = (-1, buf) ∧
              ((ataWrite found lba count buf).run (busDevice t) b').1 = -1)) := by
  obtain ⟨r, found, b', hrun, hdrives, hfound | ⟨hnone, rfl, rfl, hempty⟩⟩ :=
    run_ataInit hlistens hfloating ataDrive
  · exact ⟨r, found, b', hrun, hdrives, Or.inl hfound⟩
  · exact ⟨-1, found, b', hrun, hdrives, Or.inr ⟨hnone, rfl, rfl, fun lba count buf hcount =>
      accesses_fail_empty hfloating hempty found lba hcount buf⟩⟩

/-- Of two drives `ata_init` finds the slave, a master alone it finds too, and without a drive
it fails, and so do the accesses. -/
theorem ataInit_finds_drives :
    (∃ found b', (ataInit ataMaster).run (busDevice prompt) twoDrives = ((0, found), b') ∧
      Attached found ⟨1, fun _ => .ofBytes fun _ => 1⟩ b') ∧
    (∃ found b', (ataInit ataSlave).run (busDevice slow) oneDrive = ((0, found), b') ∧
      Attached found ⟨4, fun _ => .ofBytes fun _ => 1⟩ b') ∧
    ∃ b', (ataInit ataMaster).run (busDevice slow) noDrive = ((-1, ataMaster), b') ∧
      ((ataWrite ataMaster 0 1 fun _ => 7).run (busDevice slow) b').1 = -1 := by
  have hfinds {t : Timing} {b : Bus} {p : Platter} (ataDrive : UInt8) (hlistens : b.Listens)
      (hfloating : t.floating = 0xFF ∨ t.floating = 0x00)
      (hthere : (b.drives true).or (b.drives false) = some p) :
      ∃ found b', (ataInit ataDrive).run (busDevice t) b = ((0, found), b') ∧
        Attached found p b' := by
    obtain ⟨r, found, b', hrun, -, ⟨p', hp', rfl, hattached⟩ | ⟨hnone, -⟩⟩ :=
      ataInit_finds hlistens hfloating ataDrive
    · obtain rfl := Option.some.inj (hp'.symm.trans hthere)
      exact ⟨found, b', hrun, hattached⟩
    · exact nomatch hnone.symm.trans hthere
  refine ⟨hfinds ataMaster ⟨rfl, Or.inl rfl⟩ (Or.inl rfl) rfl,
    hfinds ataSlave ⟨rfl, Or.inl rfl⟩ (Or.inr rfl) rfl, ?_⟩
  obtain ⟨r, found, b', hrun, -, ⟨p, hp, -⟩ | ⟨-, rfl, rfl, hfails⟩⟩ :=
    ataInit_finds (t := slow) (b := noDrive) ⟨rfl, Or.inl rfl⟩ (Or.inr rfl) ataMaster
  · cases hp
  · exact ⟨b', hrun, (hfails 0 1 (fun _ => 7) (by decide)).2⟩

end Probe

end MasterOS.Pio
