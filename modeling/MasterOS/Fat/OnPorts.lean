/-
# The driver on a drive

The operations of the driver over the ports of a drive. As long as a call stays on the drive,
it returns there what it returns over the disk that the drive holds, and leaves on the drive
the disk that it leaves. So what callers of the driver see over the ports is what a store of
files may show them.
-/

import MasterOS.Device.Probe
import MasterOS.Fat.Divides
import MasterOS.Fat.Inside
import MasterOS.Fat.Serves

namespace MasterOS.Fat

open MasterOS.Device MasterOS.Device.Prog MasterOS.Math MasterOS.Pio
open MasterOS.Ata (ataMaster)
open MasterOS.Device.PortProg (run_bind_of_run)

/-- A sector that the drive has, with an address that its registers can hold. -/
def OnDrive (size lba : ℕ) : Prop := lba < size ∧ lba < 2 ^ 28

section Programs

variable {t : Timing} {ataDrive : UInt8} {size : ℕ} {d : Disk} {b : Bus} {α : Type}

theorem toNat_lba {lba : ℕ} (h : lba < 2 ^ 28) : (UInt32.ofNat lba).toNat % 2 ^ 28 = lba := by
  rw [UInt32.toNat_ofNat', Nat.mod_eq_of_lt (by omega : lba < 2 ^ 32), Nat.mod_eq_of_lt h]

theorem putAll_one (lba : ℕ) (block : Sector) :
    Platter.putAll ⟨size, d⟩ lba 1 block.byte 0 = ⟨size, Function.update d lba block⟩ := by
  rw [Platter.putAll]
  congr 1
  funext n
  by_cases hn : n = lba
  · rw [if_pos (by omega), hn, Function.update_self]
    refine Sector.ext_byte fun k hk => ?_
    rw [Sector.byte_ofBytes _ hk, Nat.sub_self, Nat.add_zero, Nat.zero_mul, Nat.zero_add]
  · rw [if_neg (by omega), Function.update_of_ne hn]

/-- **The ports make a disk of the drive.** A program that stays on the drive does over its
ports what it does over the disk. -/
theorem run_onPorts (htimely : Timely t) (buf : ℕ → UInt8) {p : FatProg α}
    (hstays : Prog.Stays (OnDrive size) p d) (h : Attached ataDrive ⟨size, d⟩ b) :
    ∃ b', (onPorts ataDrive buf p).run (busDevice t) b = ((p.exec d).1, b') ∧
      Attached ataDrive ⟨size, applyWrites (p.exec d).2 d⟩ b' := by
  induction p generalizing d b with
  | ret value => exact ⟨b, rfl, h⟩
  | stop fault => exact ⟨b, rfl, h⟩
  | read addr next ih =>
      obtain ⟨⟨hsize, hlow⟩, hrest⟩ := hstays
      obtain ⟨out, b₁, hread, hattached, hdrives, hout⟩ := run_ataRead_bus htimely h
        (UInt32.ofNat addr) (by decide : (1 : UInt8) ≠ 0) buf
      have hone : (1 : UInt8).toNat = 1 := rfl
      have hfit : addr + 1 ≤ (⟨size, d⟩ : Platter).size := hsize
      rw [toNat_lba hlow, hone, if_pos hfit] at hread
      rw [toNat_lba hlow, hone] at hout
      have hsector : Sector.ofBytes out = d addr := by
        refine Sector.ext_byte fun k hk => ?_
        rw [Sector.byte_ofBytes _ hk, hout hfit k, if_pos (by omega), Nat.div_eq_of_lt hk,
          Nat.mod_eq_of_lt hk]
        rfl
      obtain ⟨b', hrun, hattached'⟩ := ih (some (d addr)) hrest hattached
      refine ⟨b', ?_, hattached'⟩
      rw [onPorts, run_bind_of_run _ _ hread, exec_read]
      dsimp only
      rw [if_pos rfl, hsector, hrun]
  | write addr block next ih =>
      obtain ⟨⟨hsize, hlow⟩, hrest⟩ := hstays
      have hone : (1 : UInt8).toNat = 1 := rfl
      obtain ⟨b₁, hwrite, hattached, -⟩ := run_ataWrite_bus htimely h
        (UInt32.ofNat addr) (by decide : (1 : UInt8) ≠ 0) block.byte
        (by rw [toNat_lba hlow, hone]; exact hsize)
      rw [toNat_lba hlow, hone, putAll_one] at hattached
      obtain ⟨b', hrun, hattached'⟩ := ih true hrest hattached
      refine ⟨b', ?_, hattached'⟩
      rw [onPorts, run_bind_of_run _ _ hwrite, exec_write]
      exact hrun

end Programs

/-! ## Calls over the ports -/

/-- The driver, and the bus that its drive is on. -/
structure PortSystem where
  driver : Driver
  bus : Bus

/-- The drive holds a volume that stands for the store, and is as large as the volume. -/
structure StandsOn (ataDrive : UInt8) (size : ℕ) (d : Disk) (s : PortSystem) (F : Files) :
    Prop where
  attached : Attached ataDrive ⟨size, d⟩ s.bus
  fits : s.driver.mount.totalSectors ≤ size
  volume : OnVolume ⟨s.driver, d⟩
  stands : Stands ⟨s.driver, d⟩ F

/-- A supplied call that stores a new, plain name, or a read, over the ports. The conditions are
about the disk on the drive; over that disk the call does not stop. -/
inductive ServedOnPorts (t : Timing) (ataDrive : UInt8) :
    PortSystem → Request (List UInt8) UInt8 × Reply UInt8 → PortSystem → Prop
  | call {st st' : Driver} {size : ℕ} {d : Disk} {b b' : Bus} (op : Op) {fuel : ℕ}
      {buf : ℕ → UInt8} {r : ℤ} :
      Attached ataDrive ⟨size, d⟩ b → op.Regular ⟨st, d⟩ →
      op.TakesIn (GoodCluster st.mount) ⟨st, d⟩ → op.NewName ⟨st, d⟩ → op.StoresPlain →
      (∃ value writes, (op.run fuel st).Returns d value writes) →
      (onPorts ataDrive buf (op.run fuel st)).run (busDevice t) b = (.ok (r, st'), b') →
      ServedOnPorts t ataDrive ⟨st, b⟩ (op.request, codeReply r) ⟨st', b'⟩
  | read {st st' : Driver} {b b' : Bus} (name : CString) {buf out : ℕ → UInt8}
      {bufSize fuel : ℕ} {scratch : ℕ → UInt8} {bytes : ℤ} : bufSize < 2 ^ 31 →
      (onPorts ataDrive scratch (fatRead fuel st name buf bufSize)).run (busDevice t) b =
        (.ok ((bytes, out), st'), b') →
      ServedOnPorts t ataDrive ⟨st, b⟩ (.read name.key bufSize, readReply bytes out) ⟨st', b'⟩

section Calls

variable {t : Timing} {ataDrive : UInt8} {size : ℕ} {d : Disk} {s s' : PortSystem} {F : Files}

/-- The sectors of the volume are on the drive. -/
theorem StandsOn.onDrive (h : StandsOn ataDrive size d s F) {lba : ℕ}
    (hlba : InVolume s.driver.mount (GoodCluster s.driver.mount) lba) : OnDrive size lba := by
  have hu : s.driver.mount.Usable := h.volume.ready.sound.valid.usable
  refine ⟨lt_of_lt_of_le (hlba.lt hu h.volume.front) h.fits, ?_⟩
  rcases hlba with hlow | ⟨c, k, hgood, hk, rfl⟩
  · have hroot := hu.rootStart_le
    have hsectors := hu.rootSectors_lt
    have hdata := hu.dataStart_eq
    omega
  · exact hu.clusterLba_lt hgood.1.1 (lt_trans hgood.1.lt (by decide)) hk

/-- A program of the driver that stays on the volume. -/
theorem StandsOn.run (htimely : Timely t) (h : StandsOn ataDrive size d s F) (buf : ℕ → UInt8)
    {α : Type} {p : FatProg α}
    (hstays : Prog.Stays (InVolume s.driver.mount (GoodCluster s.driver.mount)) p d) :
    ∃ b', (onPorts ataDrive buf p).run (busDevice t) s.bus = ((p.exec d).1, b') ∧
      Attached ataDrive ⟨size, applyWrites (p.exec d).2 d⟩ b' :=
  run_onPorts htimely buf (hstays.mono fun _ hlba => h.onDrive hlba) h.attached

/-- **One call over the ports is one request to the store.** -/
theorem StandsOn.step (htimely : Timely t) (h : StandsOn ataDrive size d s F)
    {label : Request (List UInt8) UInt8 × Reply UInt8}
    (hstep : ServedOnPorts t ataDrive s label s') :
    ∃ d' F', Store.Step F label F' ∧ StandsOn ataDrive size d' s' F' := by
  cases hstep with
  | @call st st' _ d₁ b b' op fuel buf r hattached hregular htakes hnew hplain hreturns hrun =>
      obtain rfl : d = d₁ := by
        have hthere := h.attached.there.symm.trans hattached.there
        injection hthere with hthere
        injection hthere
      obtain ⟨⟨r₁, st₁⟩, writes, hreturns⟩ := hreturns
      have hsupplied : (Call.op op).Supplied ⟨st, d⟩ := ⟨hregular, htakes⟩
      obtain ⟨hstays, hvolume⟩ := h.volume.call hsupplied hreturns
      obtain ⟨b₁, hrun₁, hattached₁⟩ := h.run htimely buf hstays
      have hexec : (op.run fuel st).exec d = (.ok (r₁, st₁), writes) := hreturns
      rw [show (Call.op op).run fuel st = op.run fuel st from rfl, hexec] at hrun₁ hattached₁
      obtain ⟨hresult, rfl⟩ := Prod.mk.inj (hrun.symm.trans hrun₁)
      obtain ⟨rfl, rfl⟩ := Prod.mk.inj (Except.ok.inj hresult)
      obtain ⟨F', hstore, hF'⟩ :=
        simulates_store _ _ _ _ h.stands (.call op hregular hnew hplain hreturns)
      have hmount := ((Call.run_tails fuel st (.op op)).of_returns hreturns).mount
      exact ⟨_, F', hstore, hattached₁, by rw [hmount]; exact h.fits, hvolume, hF'⟩
  | @read st st' b b' name buf out bufSize fuel scratch bytes hbuf hrun =>
      obtain ⟨honly, hkeeps⟩ := @fatRead_keeps st fuel name buf bufSize
      have hreads := fatRead_reads h.volume.ready h.volume.confined name buf bufSize fuel
      obtain ⟨b₁, hrun₁, hattached₁⟩ :=
        h.run htimely scratch (stays_of_readOnly honly hreads)
      obtain ⟨hresult, rfl⟩ := Prod.mk.inj (hrun.symm.trans hrun₁)
      have hreturns : (fatRead fuel st name buf bufSize).Returns d ((bytes, out), st') [] :=
        Prod.ext hresult.symm (honly.exec_snd d)
      obtain ⟨fatBuf, hst⟩ := hkeeps.of_returns hreturns
      obtain ⟨F', hstore, hF'⟩ := simulates_store _ _ _ _ h.stands (.read name hbuf hreturns)
      rw [honly.exec_snd d] at hattached₁
      obtain rfl : st' = st.keepBuf .read fatBuf := hst
      exact ⟨d, F', hstore, hattached₁, h.fits, h.volume.keepBuf _ fatBuf, hF'⟩

/-- **Whole runs over the ports are runs of a store.** What callers ask of the driver and are
told, with every sector passing the ports of the drive, is what the store may be asked and may
tell. -/
theorem ports_refine_store (htimely : Timely t) (h : StandsOn ataDrive size d s F)
    {labels : List (Request (List UInt8) UInt8 × Reply UInt8)}
    (htrace : Trace (ServedOnPorts t ataDrive) s labels s') :
    ∃ d' F', Trace Store.Step F labels F' ∧ StandsOn ataDrive size d' s' F' := by
  have hsim : Simulates (ServedOnPorts t ataDrive) Store.Step
      fun s F => ∃ d, StandsOn ataDrive size d s F := by
    rintro s F label s' ⟨d, h⟩ hstep
    obtain ⟨d', F', hstore, h'⟩ := h.step htimely hstep
    exact ⟨F', hstore, d', h'⟩
  obtain ⟨F', hstore, d', h'⟩ := hsim.trace ⟨d, h⟩ htrace
  exact ⟨d', F', hstore, h'⟩

end Calls

/-! ## From power-on -/

/-- **A kernel that finds a drive serves what is on it.** `ata_init` and `fat_init` come before
all calls, and the volume on the drive stands for a store when the kernel starts. -/
theorem boot_serves_store {t : Timing} {b : Bus} (htimely : Timely t) (hlistens : b.Listens)
    (hfloating : t.floating = 0xFF ∨ t.floating = 0x00) {p : Platter}
    (hp : (b.drives true).or (b.drives false) = some p) {st : Driver}
    (hst : st = freshDriver (mountOf (Bpb.ofSector (p.content 0)))) {F : Files}
    (hF : Stands ⟨st, p.content⟩ F) (hvolume : OnVolume ⟨st, p.content⟩)
    (hfits : st.mount.totalSectors ≤ p.size) (ataDrive : UInt8) (buf : ℕ → UInt8) :
    ∃ found b₁ b₂, (ataInit ataDrive).run (busDevice t) b = ((0, found), b₁) ∧
      (onPorts found buf (fatInit unmounted)).run (busDevice t) b₁ = (.ok (0, st), b₂) ∧
      StandsOn found p.size p.content ⟨st, b₂⟩ F ∧
      ∀ (labels : List (Request (List UInt8) UInt8 × Reply UInt8)) (s' : PortSystem),
        Trace (ServedOnPorts t found) ⟨st, b₂⟩ labels s' →
          ∃ d' F', Trace Store.Step F labels F' ∧ StandsOn found p.size d' s' F' := by
  have hv : st.mount.Valid := hF.ready.sound.valid
  have hfront : 0 < p.size := by
    have hreserved := hv.reserved_pos
    have hstart := hv.fatStart_eq
    have hroot := hv.rootStart_eq
    have hdata := hv.dataStart_eq
    have hle : st.mount.dataStart ≤ st.mount.totalSectors := hvolume.front
    omega
  obtain ⟨r, found, b₁, hinit, -, ⟨p', hp', rfl, hattached⟩ | ⟨hnone, -⟩⟩ :=
    run_ataInit hlistens hfloating ataDrive
  · obtain rfl : p = p' := Option.some.inj (hp.symm.trans hp')
    have hbytes : (Bpb.ofSector (p.content 0)).bytesPerSector ≠ 0 := by
      have hsector : (Bpb.ofSector (p.content 0)).bytesPerSector.toNat = 512 := by
        have hbytes := hv.bytesPerSector
        rwa [hst] at hbytes
      intro hzero
      rw [hzero] at hsector
      exact absurd hsector (by decide)
    have hstays : Prog.Stays (OnDrive p.size) (fatInit unmounted) p.content := by
      refine ⟨⟨hfront, by decide⟩, ?_⟩
      show Prog.Stays _ (ite _ _ _) _
      split_ifs <;> exact True.intro
    obtain ⟨b₂, hmount, hattached₂⟩ := run_onPorts htimely buf hstays hattached
    have hexec := fatInit_exec (rfl : p.content 0 = p.content 0)
    rw [if_neg hbytes, ← hst] at hexec
    rw [hexec] at hmount hattached₂
    have hstands : StandsOn found p.size p.content ⟨st, b₂⟩ F := ⟨hattached₂, hfits, hvolume, hF⟩
    exact ⟨found, b₁, b₂, hinit, hmount, hstands,
      fun labels s' htrace => ports_refine_store htimely hstands htrace⟩
  · rw [hp] at hnone
    cases hnone

/-- What sector 0 holds does not matter to the volume. -/
theorem edit_boot {m : Mount} (hv : m.Valid) (d : Disk) (boot : Sector) :
    Edit m d (Function.update d 0 boot) (fun _ => False) [] ∧
      ∀ lba, m.fatStart ≤ lba → Function.update d 0 boot lba = d lba := by
  have hreserved := hv.reserved_pos
  have hstart := hv.fatStart_eq
  have hroot := hv.rootStart_eq
  have hsame (lba : ℕ) (hlba : m.fatStart ≤ lba) : Function.update d 0 boot lba = d lba :=
    Function.update_of_ne (by omega) ..
  refine ⟨⟨fun c hc => absurd hc List.not_mem_nil,
    fun c hload _ => fatAt_congr hv (fun lba hlba _ => hsame lba hlba) hload,
    fun lba hlba _ _ => hsame lba (by omega), fun lba i hlba _ _ _ => ?_⟩, hsame⟩
  rw [hsame lba (by omega)]

/-- The boot sector of the small volume. -/
def smallBoot : Sector := .ofBytes fun k =>
  if k = 12 then 2 else if k = 13 ∨ k = 14 ∨ k = 16 ∨ k = 20 ∨ k = 22 then 1
  else if k = 17 then 16 else if k = 19 then 86 else 0

/-- A blank volume with its boot sector. -/
def bootDisk : Disk := Function.update blank 0 smallBoot

/-- A bus with the volume on its master. -/
def bootBus : Bus where
  drives slave := if slave then none else some ⟨342, bootDisk⟩
  registers _ := 0
  phase := .idle
  busy := 0
  quiet := 0
  begun := 0

theorem fatAt_bootDisk {c : ℕ} (hload : Loaded smallMount c) : fatAt smallMount bootDisk c = 0 := by
  have hedit := (edit_boot valid_smallMount blank smallBoot).1
  exact (hedit.table c hload List.not_mem_nil).trans (fatAt_blank _ c)

theorem stands_bootDisk : Stands ⟨freshDriver smallMount, bootDisk⟩ emptyStore := by
  obtain ⟨hedit, hsame⟩ := edit_boot valid_smallMount blank smallBoot
  have hunused : Unused smallMount blank [] := fun c hc => absurd hc List.not_mem_nil
  have hcopies := copies_of_outside valid_smallMount (fun lba hlba _ => hsame lba hlba)
    ready_blankSystem.wellFormed.copies
  exact stands_blankSystem.nothing (ready_blankSystem.edit_unused hedit hunused hcopies) rfl rfl
    hedit hunused

theorem onVolume_bootDisk : OnVolume ⟨freshDriver smallMount, bootDisk⟩ where
  ready := stands_bootDisk.ready
  confined c hdata hne := absurd (fatAt_bootDisk hdata.2.2) hne
  front := by decide

/-- The call that stores a byte on that volume. -/
theorem storeA_bootDisk : ∃ st writes,
    (Op.write nameA (fun _ => 7) 1).Regular ⟨freshDriver smallMount, bootDisk⟩ ∧
      (Op.write nameA (fun _ => 7) 1).TakesIn (GoodCluster smallMount)
        ⟨freshDriver smallMount, bootDisk⟩ ∧
      (Op.write nameA (fun _ => 7) 1).NewName ⟨freshDriver smallMount, bootDisk⟩ ∧
      ((Op.write nameA (fun _ => 7) 1).run 4 (freshDriver smallMount)).Returns bootDisk (0, st)
        writes := by
  have hnone (n : ℕ) (loc : Loc) : ¬ LiveAt smallMount bootDisk 0 n loc := fun hlive => by
    obtain ⟨node, hnode, -⟩ := stands_bootDisk.shows.node 0 n loc .root hlive
    cases hnode
  have hreplaced : Replaced smallMount bootDisk 0 nameA [] :=
    Or.inr ⟨fun loc hnamed => by
      obtain ⟨n, hlive⟩ := hnamed.file.1
      exact hnone n loc hlive, rfl⟩
  have hfree : fatNextCluster (loaded smallMount bootDisk fun _ => 0) 2 = 0 :=
    (fatNextCluster_loaded (show Loaded smallMount 2 by decide)).trans
      (fatAt_bootDisk (by decide))
  obtain ⟨st, hstore⟩ := returns_of_exec (show (((Op.write nameA (fun _ => 7) 1).run 4
    (freshDriver smallMount)).exec bootDisk).1.map Prod.fst = .ok 0 by decide +kernel)
  refine ⟨st, _, ⟨by decide, [], hreplaced, Or.inl ?_⟩, ⟨[], hreplaced, Or.inl ?_⟩,
    fun _ _ n loc hlive => absurd hlive (hnone n loc), hstore⟩
  · exact Finset.card_pos.mpr
      ⟨2, (window_dataCluster smallMount).mem_freeIn.mpr ⟨by decide, hfree⟩⟩
  · exact Finset.card_pos.mpr
      ⟨2, (window_goodCluster smallMount).mem_freeIn.mpr ⟨by decide, hfree⟩⟩

/-- The kernel finds the blank volume on the master, and `A` is written to it. -/
theorem boot_serves_store_bootBus : ∃ found b₁ b₂ s' d' F',
    (ataInit ataMaster).run (busDevice prompt) bootBus = ((0, found), b₁) ∧
      Trace (ServedOnPorts prompt found) ⟨freshDriver smallMount, b₂⟩
        [(.write nameA.key [7], .done)] s' ∧
      Trace Store.Step emptyStore [(.write nameA.key [7], .done)] F' ∧
      StandsOn found 342 d' s' F' := by
  have hbpb : smallMount.bpb = Bpb.ofSector (bootDisk 0) := by
    rw [Bpb.ofSector, smallMount, mountOf, Bpb.mk.injEq]
    decide +kernel
  have hst : freshDriver smallMount = freshDriver (mountOf (Bpb.ofSector (bootDisk 0))) :=
    congrArg (fun bpb => freshDriver (mountOf bpb)) hbpb
  have hlistens : bootBus.Listens := ⟨rfl, Or.inl rfl⟩
  obtain ⟨found, b₁, b₂, hinit, -, hstands, hserves⟩ := boot_serves_store timely_prompt hlistens
    (Or.inl rfl) (show (bootBus.drives true).or (bootBus.drives false) = some ⟨342, bootDisk⟩ from
      rfl) hst stands_bootDisk onVolume_bootDisk (by decide) ataMaster fun _ => 0
  obtain ⟨st, writes, hregular, htakes, hnew, hstore⟩ := storeA_bootDisk
  have hsupplied : (Call.op (.write nameA (fun _ => 7) 1)).Supplied
      ⟨freshDriver smallMount, bootDisk⟩ := ⟨hregular, htakes⟩
  obtain ⟨b₃, hrun, -⟩ := hstands.run timely_prompt (fun _ => 0)
    (onVolume_bootDisk.call hsupplied hstore).1
  have hexec : ((Op.write nameA (fun _ => 7) 1).run 4 (freshDriver smallMount)).exec bootDisk =
    (.ok (0, st), writes) := hstore
  rw [show (Call.op (.write nameA (fun _ => 7) 1)).run 4 (freshDriver smallMount) =
    (Op.write nameA (fun _ => 7) 1).run 4 (freshDriver smallMount) from rfl, hexec] at hrun
  have hcall : ServedOnPorts prompt found ⟨freshDriver smallMount, b₂⟩
      (.write nameA.key [7], .done) ⟨st, b₃⟩ :=
    .call (.write nameA (fun _ => 7) 1) hstands.attached hregular htakes hnew valid83_nameA.fits
      ⟨_, _, hstore⟩ hrun
  have htrace := Trace.cons hcall (Trace.nil _)
  obtain ⟨d', F', hstore', hstands'⟩ := hserves _ _ htrace
  exact ⟨found, b₁, b₂, _, d', F', hinit, htrace, hstore', hstands'⟩

end MasterOS.Fat
