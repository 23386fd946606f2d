/-
# Dividing by what the boot sector says

`fat_init` takes the fields of sector 0 as they are. It divides by the bytes of a sector, and
a call in a directory other than the root divides by the sectors of a cluster. A volume
without a root directory never leaves it, so there the second divisor does not matter.
-/

import MasterOS.Fat.Faults

namespace MasterOS.Fat

open MasterOS.Device MasterOS.Device.Prog MasterOS.Math

/-- The statics before `fat_init`. -/
def unmounted : Driver where
  mount := ⟨⟨0, 0, 0, 0, 0, 0, 0, 0⟩, false, 0, 0, 0, 0⟩
  currentDirCluster := 0
  currentPath := [0x2F]
  fatBuf _ _ := 0

/-- Any number of calls, each of which returns. -/
def CallRun : System → System → Prop :=
  Relation.ReflTransGen fun s s' => ∃ fuel call r st writes,
    (Call.run fuel s.driver call).Returns s.disk (r, st) writes ∧
      s' = ⟨st, applyWrites writes s.disk⟩

/-- With this boot sector `fat_init` returns, and once it has returned 0 no call of a run on
any disk divides by zero. -/
structure NeverDivides (boot : Sector) : Prop where
  init : ∀ d : Disk, d 0 = boot → ∃ r, (fatInit unmounted).Returns d r []
  calls : ∀ d : Disk, d 0 = boot → ∀ st, (fatInit unmounted).Returns d (0, st) [] →
    ∀ d' s, CallRun ⟨st, d'⟩ s → ∀ fuel call,
      ((Call.run fuel s.driver call).exec s.disk).1 ≠ .error .divideByZero

/-- What `fat_init` does with a boot sector. -/
theorem fatInit_exec {boot : Sector} {d : Disk} (hboot : d 0 = boot) :
    (fatInit unmounted).exec d =
      if (Bpb.ofSector boot).bytesPerSector = 0 then (.error .divideByZero, [])
      else (.ok (0, freshDriver (mountOf (Bpb.ofSector boot))), []) := by
  have hzero : (Bpb.ofSector boot).bytesPerSector.toNat = 0 ↔
      (Bpb.ofSector boot).bytesPerSector = 0 := UInt16.toNat_inj (b := 0)
  have hexec : (fatInit unmounted).exec d =
      (if (Bpb.ofSector (d 0)).bytesPerSector.toNat = 0 then .stop .divideByZero
      else .ret (0, { unmounted with mount := mountOf (Bpb.ofSector (d 0)) }) :
        FatProg (ℤ × Driver)).exec d := rfl
  rw [hexec, hboot]
  by_cases hbytes : (Bpb.ofSector boot).bytesPerSector = 0
  · rw [if_pos (hzero.mpr hbytes), if_pos hbytes]
    rfl
  · rw [if_neg (mt hzero.mp hbytes), if_neg hbytes]
    rfl

/-! ## Runs that never divide by zero -/

/-- The driver divides by nothing that is zero: clusters have sectors, or there is no root
directory to leave. -/
structure NonzeroDivisor (m : Mount) (st : Driver) : Prop where
  mount : st.mount = m
  lt : st.currentDirCluster < 2 ^ 16
  divisor : m.spc ≠ 0 ∨ m.rootSectors = 0 ∧ st.currentDirCluster = 0

theorem NonzeroDivisor.walkSafe {m : Mount} {st : Driver} (h : NonzeroDivisor m st) (s : ℕ) :
    WalkSafe (· = .divideByZero) st.mount st.currentDirCluster s := by
  rcases h.divisor with hspc | ⟨-, hzero⟩
  · refine Or.inr ⟨fun _ => ?_, (by cases ·)⟩
    rw [h.mount]
    exact hspc
  · exact Or.inl hzero

/-- No call divides by zero, and after it the driver still divides by nothing that is zero. -/
theorem NonzeroDivisor.call {m : Mount} {st : Driver} (h : NonzeroDivisor m st)
    (hm : m = mountOf m.bpb) (call : Call) (fuel : ℕ) (d : Disk) :
    Prog.Meets (· = .divideByZero) (fun r _ => NonzeroDivisor m r.2) (call.run fuel st) d := by
  have hm' : st.mount = mountOf st.mount.bpb := by
    rw [h.mount]
    exact hm
  have hsafe : call.Safe (· = .divideByZero) fuel st d :=
    call.safe_of_walk hm' h.lt (by decide) h.walkSafe
  refine (Call.run_meets (by decide) hm' h.lt (by cases ·) hsafe).mono fun r _ hr =>
    ⟨hr.mount.trans h.mount, hr.lt, ?_⟩
  refine h.divisor.imp_right fun ⟨hroot, hzero⟩ => ⟨hroot, hr.emptyRoot ?_ hzero⟩
  rw [h.mount]
  exact hroot

/-- So it is in every state of a run. -/
theorem NonzeroDivisor.run {m : Mount} {s s' : System} (h : NonzeroDivisor m s.driver)
    (hm : m = mountOf m.bpb) (hrun : CallRun s s') : NonzeroDivisor m s'.driver := by
  induction hrun with
  | refl => exact h
  | tail _ hstep ih =>
      obtain ⟨fuel, call, r, st, writes, hreturns, rfl⟩ := hstep
      exact (ih.call hm call fuel _).returns hreturns

/-! ## A disk that makes the driver divide by zero -/

/-- A directory sector whose first record is a directory `A` at cluster 2. -/
def trapSector : Sector := Sector.setEntry (Sector.ofBytes fun _ => 0) 0 (newEntry nameA 0x10 2 0)

/-- In a root directory that has sectors, `fat_cd` enters the directory whose record is the
first one. -/
theorem fatCd_first {m : Mount} {d : Disk} {name : CString} (hmounted : m.initialized = true)
    (hroot : m.rootSectors ≠ 0) (hup : name.chars ≠ [0x2E, 0x2E]) {sector : Sector}
    (hsector : d (m.rootStart % 2 ^ 32 % 2 ^ 28) = sector)
    (hscan : scanSlots (dirVerdict name) sector (List.range 16) = .hit 0) :
    ∃ st, (fatCd 1 (freshDriver m) name).Returns d (0, st) [] ∧ st.mount = m ∧
      st.currentDirCluster = (sector.entry 0).firstCluster.toNat := by
  have hread (fatBuf : FatBuf) : (readDirSector m 0 fatBuf 0).Returns d (.ok sector) [] := by
    rw [readDirSector, if_pos rfl, if_neg (by omega), ← hsector]
    rfl
  have hfound (fatBuf : FatBuf) : (findSlot m 0 fatBuf (dirVerdict name) 1 0).Returns d
      (some ⟨0, sector, 0⟩) [] := by
    rw [findSlot]
    refine (hread fatBuf).bind_nil ?_
    dsimp only
    rw [hscan]
    rfl
  have hnot : ¬ ((freshDriver m).mount.initialized && name.chars == [0x2E, 0x2E]) = true := by
    rw [Bool.and_eq_true, beq_iff_eq]
    exact fun h => hup h.2
  have hpath : (cdPath [0x2F] (cstr (makeName (sector.entry 0).name
      (sector.entry 0).ext))).length < 256 :=
    @pathFits_of_root (freshDriver m) rfl (sector.entry 0)
  refine ⟨{ (freshDriver m).keepBuf .cd (loadedTable m d fun _ => 0) with
    currentDirCluster := (sector.entry 0).firstCluster.toNat
    currentPath := cdPath [0x2F] (cstr (makeName (sector.entry 0).name
      (sector.entry 0).ext)) }, ?_, rfl, rfl⟩
  rw [Returns, fatCd, if_neg hnot, withFat_exec_of_mounted hmounted]
  refine (hfound _).bind_nil ?_
  dsimp only [Hit.entry, freshDriver]
  rw [if_pos hpath]
  rfl

/-- In a directory other than the root, `fat_list` divides by the sectors of a cluster. -/
theorem fatList_divides {st : Driver} (hmounted : st.mount.initialized = true)
    (hspc : st.mount.spc = 0) (hdirc : st.currentDirCluster ≠ 0) (d : Disk) :
    ((Call.run 1 st (.list 1)).exec d).1 = .error .divideByZero := by
  have hsector (fatBuf : FatBuf) :
      readDirSector st.mount st.currentDirCluster fatBuf 0 = .stop .divideByZero := by
    rw [readDirSector, if_neg hdirc, if_pos hspc]
  have hlist : (fatList 1 st 1).exec d = (.error .divideByZero, []) := by
    rw [fatList, withFat_exec_of_mounted hmounted, listSectors, if_pos (by decide), hsector]
    rfl
  rw [Call.run, exec_bind, hlist]

/-- **Two divisors.** No call ever divides by zero exactly when the boot sector has bytes in
its sectors, and sectors in its clusters or no root directory. -/
theorem neverDivides_iff (boot : Sector) : NeverDivides boot ↔
    (Bpb.ofSector boot).bytesPerSector ≠ 0 ∧
      ((Bpb.ofSector boot).sectorsPerCluster ≠ 0 ∨ (Bpb.ofSector boot).rootEntryCount = 0) := by
  generalize hbpb : Bpb.ofSector boot = bpb
  have hrootSectors : (mountOf bpb).rootSectors = (bpb.rootEntryCount.toNat * 32 +
      (bpb.bytesPerSector.toNat - 1)) / bpb.bytesPerSector.toNat := rfl
  have hspc : (mountOf bpb).spc = 0 ↔ bpb.sectorsPerCluster = 0 := UInt8.toNat_inj (b := 0)
  constructor
  · intro h
    have hbytes : bpb.bytesPerSector ≠ 0 := by
      intro hzero
      obtain ⟨r, hinit⟩ := h.init (fun _ => boot) rfl
      rw [Returns, fatInit_exec rfl, hbpb, if_pos hzero] at hinit
      cases hinit
    refine ⟨hbytes, ?_⟩
    by_contra hnot
    obtain ⟨hclusters, hentries⟩ := not_or.mp hnot
    have hroot : (mountOf bpb).rootSectors ≠ 0 := by
      have hsome : bpb.rootEntryCount.toNat ≠ 0 := mt (UInt16.toNat_inj (b := 0)).mp hentries
      have hpos : bpb.bytesPerSector.toNat ≠ 0 := mt (UInt16.toNat_inj (b := 0)).mp hbytes
      rw [hrootSectors]
      exact (Nat.div_pos (by omega) (by omega)).ne'
    obtain ⟨st, hcd, hmount, hdirc⟩ := @fatCd_first (mountOf bpb) (fun _ => trapSector) nameA rfl
      hroot (by decide) trapSector rfl (by decide +kernel)
    have hinit : (fatInit unmounted).Returns (fun _ => boot) (0, freshDriver (mountOf bpb)) [] := by
      rw [Returns, fatInit_exec rfl, hbpb, if_neg hbytes]
    refine h.calls _ rfl _ hinit (fun _ => trapSector) ⟨st, fun _ => trapSector⟩ ?_ 1 (.list 1) ?_
    · exact .single ⟨1, .op (.cd nameA), 0, st, [], hcd, rfl⟩
    · refine fatList_divides ?_ ?_ ?_ _
      · rw [hmount]
        rfl
      · rw [hmount]
        exact hspc.mpr (not_not.mp hclusters)
      · rw [hdirc]
        decide +kernel
  · rintro ⟨hbytes, hdivisor⟩
    refine ⟨fun d hd => ⟨(0, freshDriver (mountOf bpb)), ?_⟩,
      fun d hd st hinit d' s hrun fuel call => ?_⟩
    · rw [Returns, fatInit_exec hd, hbpb, if_neg hbytes]
    · rw [Returns, fatInit_exec hd, hbpb, if_neg hbytes] at hinit
      cases hinit
      have hstart : NonzeroDivisor (mountOf bpb) (freshDriver (mountOf bpb)) := by
        refine ⟨rfl, Nat.two_pow_pos 16, ?_⟩
        rcases hdivisor with hclusters | hentries
        · exact Or.inl (mt hspc.mp hclusters)
        · refine Or.inr ⟨?_, rfl⟩
          rw [hrootSectors, hentries]
          have hpos : bpb.bytesPerSector.toNat ≠ 0 := mt (UInt16.toNat_inj (b := 0)).mp hbytes
          exact Nat.div_eq_of_lt (show 0 * 32 + _ < _ by omega)
      have hrun' := hstart.run rfl hrun
      exact (hrun'.call rfl call fuel s.disk).not_stops rfl

/-- **A blank disk stops `fat_init`.** -/
theorem divides_blank : ¬ NeverDivides (fun _ => 0) := by
  intro h
  obtain ⟨r, hinit⟩ := h.init (fun _ _ => 0) rfl
  rw [Returns, fatInit_exec rfl, if_pos (by decide +kernel)] at hinit
  cases hinit

end MasterOS.Fat
