/-
# Accesses to the table

`fat_next_cluster` and `fat_set_cluster` take their cluster on trust, and the array holds the
entries of the clusters up to 6143. The chains of files are checked before each access, and a
link holds twelve bits. Two clusters come unchecked: the one that `fat_cd` makes the current
directory, and the last ones that the search for a free cluster tries when the table fills
the array.
-/

import MasterOS.Device.Refusal
import MasterOS.Fat.Divides

namespace MasterOS.Fat

open MasterOS.Device MasterOS.Device.Prog MasterOS.Math

/-! ## Runs on any device -/

/-- Any number of calls that return, whatever the device answers. -/
def AnyRun : System → System → Prop :=
  Relation.ReflTransGen fun s s' => ∃ fuel call answers r,
    (Call.run fuel s.driver call).run answers s.disk = (.ok (r, s'.driver), s'.disk)

/-- The driver with the path of the root. Nothing but the path depends on it. -/
def Driver.shortPath (st : Driver) : Driver := { st with currentPath := [0x2F] }

/-- No access of the call to the table leaves the array. The path is taken as short, so that
its own array is not left either. -/
def StaysInArray (s : System) (call : Call) : Prop :=
  ∀ fuel answers,
    ((call.run fuel s.driver.shortPath).run answers s.disk).1 ≠ .error .outOfBounds

/-- The condition on a call: its search of the current directory does not go on from a first
cluster behind the array, and the table is short or supplies what the call takes. -/
def Call.InTable (s : System) (call : Call) : Prop :=
  ∀ fuel, call.Safe (· = .outOfBounds) fuel s.driver.shortPath s.disk

/-- A run is one on a device that answers everything. -/
theorem anyRun_of_run {allowed : System → Op → Prop} {s s' : System} (h : Run allowed s s') :
    AnyRun s s' := by
  induction h with
  | refl => exact .refl
  | tail _ hstep ih =>
      cases hstep with
      | @call op fuel r st writes _ hreturns =>
          refine ih.tail ⟨fuel, .op op, ⟨fun _ => true, fun _ => .done⟩, r, ?_⟩
          rw [Answered.run_eq (answered_iff.mpr ⟨fun _ _ => rfl, fun _ _ => rfl⟩), Call.run,
            hreturns]

/-- Every state of a run has the volume that was mounted, and a 16-bit current directory. -/
theorem run_mounted {s s' : System} (hm : s.driver.mount = mountOf s.driver.mount.bpb)
    (hdirc : s.driver.currentDirCluster < 2 ^ 16) (hrun : AnyRun s s') :
    s'.driver.mount = s.driver.mount ∧ s'.driver.currentDirCluster < 2 ^ 16 := by
  induction hrun with
  | refl => exact ⟨rfl, hdirc⟩
  | @tail t u _ hstep ih =>
      obtain ⟨fuel, call, answers, r, hrun⟩ := hstep
      have hm' : t.driver.mount = mountOf t.driver.mount.bpb := by
        rw [ih.1]
        exact hm
      have hsafe : call.Safe (fun _ => False) fuel t.driver t.disk :=
        call.safe_of_walk hm' ih.2 id fun _ => Or.inr ⟨False.elim, False.elim⟩
      have hkept := meets_iff_run.mp (Call.run_meets id hm' ih.2 False.elim hsafe) answers
      rw [hrun] at hkept
      exact ⟨hkept.mount.trans ih.1, hkept.lt⟩

/-- **The table's array is not left.** From every disk that `fat_init` accepts, in every state
that any run of calls leaves, a call that meets the condition stays in the array. -/
theorem stays_in_array {d : Disk} {st : Driver} {s : System} {call : Call}
    (hinit : (fatInit unmounted).Returns d (0, st) []) (hrun : AnyRun ⟨st, d⟩ s)
    (h : call.InTable s) : StaysInArray s call := by
  have hstart : st.mount = mountOf st.mount.bpb ∧ st.currentDirCluster < 2 ^ 16 := by
    rw [Returns, fatInit_exec rfl] at hinit
    split_ifs at hinit
    · cases hinit
    · cases hinit
      exact ⟨rfl, Nat.two_pow_pos 16⟩
  obtain ⟨hmount, hdirc⟩ := run_mounted hstart.1 hstart.2 hrun
  have hm : s.driver.mount = mountOf s.driver.mount.bpb := by
    rw [hmount]
    exact hstart.1
  intro fuel answers hstops
  have hmeets := @Call.run_meets (· = .outOfBounds) (by decide) s.driver.shortPath s.disk fuel call
    hm hdirc (fun _ => Nat.le_refl 1) (h fuel)
  have hkept := meets_iff_run.mp hmeets answers
  generalize (call.run fuel s.driver.shortPath).run answers s.disk = result at hkept hstops
  obtain ⟨fault | value, disk⟩ := result
  · cases hstops
    exact hkept rfl
  · cases hstops

/-! ## Two ways behind the array -/

/-- The boot sector of a volume with clusters of one sector, one table and sixteen records in
the root directory. The table has as many sectors as the array holds. -/
def longBoot : Sector := Sector.ofBytes fun k =>
  if k = 12 then 2 else if k = 13 ∨ k = 14 ∨ k = 16 then 1 else if k = 17 then 16
  else if k = 22 then 18 else 0

/-- The volume of that boot sector. -/
def longMount : Mount := mountOf (Bpb.ofSector longBoot)

/-- A disk with this boot sector and the same sector everywhere else. -/
def tiledDisk (sector : Sector) : Disk := fun a => if a = 0 then longBoot else sector

theorem fatInit_tiledDisk (sector : Sector) :
    (fatInit unmounted).Returns (tiledDisk sector) (0, freshDriver longMount) [] := by
  rw [Returns, @fatInit_exec longBoot _ rfl, if_neg (by decide +kernel)]
  rfl

/-- The volume of zeros, with the directory `A` made and entered. -/
def insideLong : System :=
  System.after 4 ⟨freshDriver longMount, tiledDisk (.ofBytes fun _ => 0)⟩ [.mkdir nameA, .cd nameA]

/-- Another directory is made inside `A` without leaving the array. -/
theorem stays_in_array_insideLong : insideLong.driver.currentDirCluster = 2 ∧
    StaysInArray insideLong (.op (.mkdir nameB)) := by
  have hinside : insideLong.driver.shortPath.currentDirCluster = 2 := by decide +kernel
  have hfree : fatNextCluster (loadedTable insideLong.driver.shortPath.mount insideLong.disk
      (insideLong.driver.shortPath.fatBuf .mkdir)) 3 = 0 := by
    decide +kernel
  refine ⟨hinside, stays_in_array (fatInit_tiledDisk _) (anyRun_of_run (run_after 4 _ _))
    fun _ => ?_⟩
  refine ⟨fun _ => Or.inr ⟨3, mem_freeBelow.mpr ⟨by decide, hfree⟩⟩, Or.inl (Or.inl fun s => ?_)⟩
  rw [hinside]
  exact Or.inr ⟨fun hbad => (by cases hbad), fun _ => Or.inr (by decide)⟩

/-- A call that leaves the array when every access is answered. -/
theorem not_staysInArray {s : System} {call : Call} {fuel : ℕ} {writes : List (ℕ × Sector)}
    (hstops : (call.run fuel s.driver.shortPath).exec s.disk = (.error .outOfBounds, writes)) :
    ¬ StaysInArray s call := by
  intro h
  have hmeets : Prog.Meets (· = .outOfBounds) (fun _ _ => True) (call.run fuel s.driver.shortPath)
      s.disk := by
    refine meets_iff_run.mpr fun answers => ?_
    have hstays := h fuel answers
    generalize (call.run fuel s.driver.shortPath).run answers s.disk = result at hstays
    obtain ⟨fault | value, disk⟩ := result
    · exact fun hbad => hstays (congrArg Except.error hbad)
    · trivial
  exact hmeets.not_stops rfl (congrArg Prod.fst hstops)

/-- When no entry in the array is free, the search in a table that fills it goes on behind. -/
theorem findFreeCluster_stops {m : Mount} {fatBuf : FatBuf} (hfull : ¬ m.fatSecs < 18)
    (hnone : ∀ c, 2 ≤ c → c < 6144 → fatNextCluster fatBuf c ≠ 0) :
    findFreeCluster fatBuf m.totalClusters = .stop .outOfBounds := by
  rw [findFreeCluster, totalClusters_of_full hfull]
  refine if_neg fun hin => ?_
  unfold InBuf at hin
  split_ifs at hin with hzero
  · omega
  · obtain ⟨h2, -, hfree, -⟩ := fatFindFreeCluster_pos rfl hzero
    exact hnone _ h2 (by omega) hfree

/-- So `fat_mkdir` stops there. -/
theorem fatMkdir_stops {st : Driver} {d : Disk} {name : CString}
    (hmounted : st.mount.initialized = true) (hfull : ¬ st.mount.fatSecs < 18)
    (hnone : ∀ c, 2 ≤ c → c < 6144 →
      fatNextCluster (loadedTable st.mount d (st.fatBuf .mkdir)) c ≠ 0) :
    ((Call.op (.mkdir name)).run 0 st).exec d = (.error .outOfBounds, []) := by
  have htaken : (fatMkdirTaken 0 st name).exec d = (.error .outOfBounds, []) := by
    rw [fatMkdirTaken, withFat_exec_of_mounted hmounted, findFreeCluster_stops hfull hnone]
    rfl
  rw [Call.run, Op.run, fatMkdir, exec_bind, htaken]

theorem fatSecs_longMount : longMount.fatSecs = 18 := rfl

/-- On a volume whose table is full, `fat_mkdir` reads behind the array. -/
theorem fatMkdir_leaves : ¬ StaysInArray ⟨freshDriver longMount, tiledDisk fun _ => 0xFF⟩
    (.op (.mkdir nameA)) := by
  have hstart : longMount.fatStart = 1 := rfl
  have hbyte (o : ℕ) (ho : o < 9216) :
      loadedTable longMount (tiledDisk fun _ => 0xFF) (fun _ => 0) o = 0xFF := by
    rw [loadedTable, fatSecs_longMount, if_pos (by omega), hstart, tiledDisk, if_neg (by omega),
      Sector.byte, dif_pos (Nat.mod_lt _ (by decide))]
  have hentry (c : ℕ) (_ : 2 ≤ c) (hc : c < 6144) :
      fatNextCluster (loadedTable longMount (tiledDisk fun _ => 0xFF) fun _ => 0) c ≠ 0 := by
    have hnibble : (0xFF : UInt8).toNat = 255 := rfl
    rcases Nat.mod_two_eq_zero_or_one c with heven | hodd
    · rw [fatNextCluster_even _ heven, hbyte _ (by omega), hnibble]
      omega
    · rw [fatNextCluster_odd _ hodd, hbyte _ (by omega), hnibble]
      omega
  have hfull : ¬ longMount.fatSecs < 18 := by
    rw [fatSecs_longMount]
    decide
  exact not_staysInArray (s := ⟨freshDriver longMount, _⟩) (fatMkdir_stops rfl hfull hentry)

/-- A directory sector of sixteen directories `A` whose cluster has no entry in the array. -/
def farSector : Sector := Sector.ofBytes fun k =>
  if k % 32 = 0 then 0x41 else if k % 32 < 11 then 0x20 else if k % 32 = 11 then 0x10
  else if k % 32 = 27 then 0x18 else 0

/-- In such a directory, whose sectors are like that too, `fat_read` reads behind the array. -/
theorem fatRead_leaves {st : Driver} (hmount : st.mount = longMount)
    (hdirc : st.currentDirCluster = 6144) :
    ¬ StaysInArray ⟨st, tiledDisk farSector⟩ (.read nameB (fun _ => 0) 0) := by
  have hspc : longMount.spc = 1 := rfl
  have hfirst : dirSector longMount (loadedTable longMount (tiledDisk farSector) (st.fatBuf .read))
      (tiledDisk farSector) 6144 0 = some farSector := by
    have hlba : longMount.clusterLba 6144 0 % 2 ^ 28 ≠ 0 := by decide +kernel
    rw [dirSector_first (by decide) (by rw [hspc]; decide), tiledDisk, if_neg hlba]
  have hscan : scanSlots (fileVerdict nameB) farSector (List.range 16) = .nothing := by
    decide +kernel
  have hsearch : (findSlot longMount 6144 (loadedTable longMount (tiledDisk farSector)
      (st.fatBuf .read)) (fileVerdict nameB) 2 0).exec (tiledDisk farSector) =
        (.error .outOfBounds, []) := by
    have hspc' : 1 ≤ longMount.spc := hspc.ge
    rw [findSlot, exec_bind, readDirSector_exec hspc' (by decide), if_pos (by omega), hfirst]
    dsimp only
    rw [hscan, applyWrites_nil]
    dsimp only
    rw [findSlot, exec_bind, readDirSector_exec hspc' (by decide), if_neg]
    · rfl
    · rw [hspc]
      decide
  have hread : (fatRead 2 st.shortPath nameB (fun _ => 0) 0).exec (tiledDisk farSector) =
      (.error .outOfBounds, []) := by
    have hmounted : st.shortPath.mount.initialized = true := by
      rw [show st.shortPath.mount = longMount from hmount]
      rfl
    rw [fatRead, withFat_exec_of_mounted hmounted]
    dsimp only [Driver.shortPath]
    rw [hmount, hdirc, exec_bind, hsearch]
  have hstops : ((Call.read nameB (fun _ => 0) 0).run 2 st.shortPath).exec (tiledDisk farSector) =
      (.error .outOfBounds, []) := by
    rw [Call.run, exec_bind, hread]
  exact not_staysInArray (s := ⟨st, _⟩) hstops

/-- **Two calls behind the array.** The table is full, and the current directory is a cluster
whose entry does not lie in the array. -/
theorem leaves_array :
    (∃ st, (fatInit unmounted).Returns (tiledDisk fun _ => 0xFF) (0, st) [] ∧
      ¬ StaysInArray ⟨st, tiledDisk fun _ => 0xFF⟩ (.op (.mkdir nameA))) ∧
    ∃ st s, (fatInit unmounted).Returns (tiledDisk farSector) (0, st) [] ∧
      AnyRun ⟨st, tiledDisk farSector⟩ s ∧ ¬ StaysInArray s (.read nameB (fun _ => 0) 0) := by
  refine ⟨⟨_, fatInit_tiledDisk _, fatMkdir_leaves⟩, ?_⟩
  have hroot : longMount.rootStart = 19 := rfl
  have hsector : tiledDisk farSector (longMount.rootStart % 2 ^ 32 % 2 ^ 28) = farSector := by
    rw [hroot, tiledDisk, if_neg (by decide)]
  obtain ⟨st, hcd, hmount, hdirc⟩ := @fatCd_first longMount (tiledDisk farSector) nameA rfl
    (by decide +kernel) (by decide) farSector hsector (by decide +kernel)
  have hcluster : (farSector.entry 0).firstCluster.toNat = 6144 := rfl
  have hrun : Run (fun _ _ => True) ⟨freshDriver longMount, tiledDisk farSector⟩
      ⟨st, tiledDisk farSector⟩ :=
    .single (.call (s := ⟨freshDriver longMount, tiledDisk farSector⟩) (.cd nameA) trivial hcd)
  exact ⟨_, _, fatInit_tiledDisk _, anyRun_of_run hrun,
    fatRead_leaves hmount (hdirc.trans hcluster)⟩

end MasterOS.Fat
