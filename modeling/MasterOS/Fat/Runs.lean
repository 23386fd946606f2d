/-
# Runs of operations

A run is any sequence of calls, each from the driver and the disk the one before it
left. From a well-formed volume every state of a run is well formed, so no cluster
ever belongs to two files or directories.
-/

import MasterOS.Fat.Blank
import Mathlib.Logic.Relation

namespace MasterOS.Fat

open MasterOS.Device MasterOS.Device.Prog MasterOS.Math

/-- A call to the driver. -/
inductive Op
  | write (name : CString) (data : ℕ → UInt8) (size : ℕ)
  | delete (name : CString)
  | rename (oldName newName : CString)
  | mkdir (name : CString)
  | rmdir (name : CString)
  | cd (name : CString)

/-- The program a call runs. -/
def Op.run (fuel : ℕ) (st : Driver) : Op → FatProg (ℤ × Driver)
  | .write name data size => fatWrite fuel st name data size
  | .delete name => fatDelete fuel st name
  | .rename oldName newName => fatRename fuel st oldName newName
  | .mkdir name => fatMkdir fuel st name
  | .rmdir name => fatRmdir fuel st name
  | .cd name => fatCd fuel st name

/-- The driver and its disk between two calls. -/
structure System where
  driver : Driver
  disk : Disk

/-- A call finds what it needs: a size that is a `uint32_t`, and as many free data
clusters as it allocates. -/
def Op.HasRoom (s : System) : Op → Prop
  | .write name _ size => size < 2 ^ 32 ∧ Fits s.driver.mount s.disk s.driver.currentDirCluster
      name (clustersFor s.driver.mount size)
  | .mkdir _ => 1 ≤ (freeClusters s.driver.mount (fatAt s.driver.mount s.disk)).card
  | _ => True

/-- A call finds what it needs, and a directory is made only where its first sector is
its whole cluster. -/
def Op.Admissible (s : System) (op : Op) : Prop :=
  op.HasRoom s ∧ ∀ name, op = .mkdir name → s.driver.mount.spc = 1

/-- One call that returns. -/
inductive Step (allowed : System → Op → Prop) : System → System → Prop
  | call {s : System} (op : Op) {fuel : ℕ} {r : ℤ} {st : Driver} {writes : List (ℕ × Sector)} :
      allowed s op → (op.run fuel s.driver).Returns s.disk (r, st) writes →
      Step allowed s ⟨st, applyWrites writes s.disk⟩

/-- Any number of calls. -/
abbrev Run (allowed : System → Op → Prop) : System → System → Prop :=
  Relation.ReflTransGen (Step allowed)

/-- Every call keeps the volume well formed. -/
theorem Ready.step {s s' : System} (hready : Ready s.driver s.disk)
    (hstep : Step (fun s op => op.Admissible s) s s') : Ready s'.driver s'.disk := by
  obtain ⟨op, hallowed, hreturns⟩ := hstep
  cases op with
  | write name data size => exact hready.fatWrite hallowed.1.1 hallowed.1.2 hreturns
  | delete name => exact hready.fatDelete hreturns
  | rename oldName newName => exact hready.fatRename hreturns
  | mkdir name => exact hready.fatMkdir (hallowed.2 name rfl) hallowed.1 hreturns
  | rmdir name => exact hready.fatRmdir hreturns
  | cd name => exact hready.fatCd hreturns

/-- Every state of a run is well formed. -/
theorem Ready.run {s s' : System} (hready : Ready s.driver s.disk)
    (hrun : Run (fun s op => op.Admissible s) s s') : Ready s'.driver s'.disk := by
  induction hrun with
  | refl => exact hready
  | tail _ hstep ih => exact ih.step hstep

/-- The system a call leaves, or the same one when the call stops. -/
def System.next (fuel : ℕ) (s : System) (op : Op) : System :=
  match (op.run fuel s.driver).exec s.disk with
  | (.ok (_, st), writes) => ⟨st, applyWrites writes s.disk⟩
  | (.error _, _) => s

/-- The system a list of calls leaves. -/
def System.after (fuel : ℕ) (s : System) (ops : List Op) : System :=
  ops.foldl (System.next fuel) s

theorem System.next_eq_or_step (fuel : ℕ) (s : System) (allowed : System → Op → Prop) (op : Op)
    (hop : allowed s op) : s.next fuel op = s ∨ Step allowed s (s.next fuel op) := by
  unfold System.next
  split
  · rename_i r st writes hexec
    exact Or.inr (.call op hop hexec)
  · exact Or.inl rfl

/-- One call is a run. -/
theorem System.run_next (fuel : ℕ) (s : System) (op : Op) {allowed : System → Op → Prop}
    (hop : allowed s op) : Run allowed s (s.next fuel op) := by
  rcases s.next_eq_or_step fuel allowed op hop with heq | hstep
  · rw [heq]
  · exact .single hstep

theorem System.next_of_returns {fuel : ℕ} {s : System} {op : Op} {r : ℤ} {st : Driver}
    {writes : List (ℕ × Sector)} (h : (op.run fuel s.driver).Returns s.disk (r, st) writes) :
    s.next fuel op = ⟨st, applyWrites writes s.disk⟩ := by
  rw [System.next, h]

/-- A list of calls is a run. -/
theorem run_after (fuel : ℕ) (s : System) (ops : List Op) :
    Run (fun _ _ => True) s (s.after fuel ops) := by
  induction ops generalizing s with
  | nil => exact .refl
  | cons op ops ih => exact (s.run_next fuel op trivial).trans (ih (s.next fuel op))

/-- An admissible call leaves a well-formed volume. -/
theorem Ready.next {s : System} (hready : Ready s.driver s.disk) (fuel : ℕ) (op : Op)
    (hop : op.Admissible s) : Ready (s.next fuel op).driver (s.next fuel op).disk := by
  rcases s.next_eq_or_step fuel (fun s op => op.Admissible s) op hop with heq | hstep
  · rw [heq]
    exact hready
  · exact hready.step hstep

/-- A freshly mounted blank volume. -/
def blankSystem : System := ⟨freshDriver smallMount, blank⟩

theorem ready_blankSystem : Ready blankSystem.driver blankSystem.disk :=
  ready_blank valid_smallMount

/-- **No cross-linking over whole runs.** In every state a run reaches the volume is
well formed, and a cluster belongs to at most one live entry. -/
theorem run_no_cross_links {s s' : System} (hready : Ready s.driver s.disk)
    (hrun : Run (fun s op => op.Admissible s) s s') :
    WellFormed s'.driver.mount s'.disk ∧
      ∀ loc loc' l l' c, Live s'.driver.mount s'.disk loc → Live s'.driver.mount s'.disk loc' →
        Owns s'.driver.mount s'.disk (entryAt s'.disk loc) l →
        Owns s'.driver.mount s'.disk (entryAt s'.disk loc') l' →
        c ∈ l → c ∈ l' → loc = loc' := by
  have hready' := hready.run hrun
  refine ⟨hready'.wellFormed, fun loc loc' l l' c hlive hlive' hl hl' hc hc' => ?_⟩
  by_contra hne
  exact hready'.wellFormed.disjoint loc loc' l l' hlive hlive' hne hl hl' hc hc'

/-! ## A volume with two files -/

/-- The blank volume with a file `A`. -/
def oneFile : System := blankSystem.next 4 (.write nameA (fun _ => 7) 1)

theorem oneFile_eq : oneFile.disk = fileDisk ∧ oneFile.driver.mount = smallMount ∧
    oneFile.driver.currentDirCluster = 0 := by
  obtain ⟨st, hstore⟩ := storeA_returns
  have hs := ready_blankSystem.sound
  obtain ⟨hmount, hcwd⟩ := fatWrite_driver hs ready_blankSystem.cwd (by decide) hstore
  have hreturns : ((Op.write nameA (fun _ => 7) 1).run 4 blankSystem.driver).Returns
      blankSystem.disk (0, st) (storeA.exec blank).2 := hstore
  rw [oneFile, System.next_of_returns hreturns]
  exact ⟨rfl, hmount, hcwd⟩

/-- A second file `B` beside it. -/
def twoFiles : System := oneFile.next 4 (.write nameB (fun _ => 9) 1)

/-- `A` becomes `C`. -/
def renamedFile : System := twoFiles.next 4 (.rename nameA nameC)

/-- Two files are written, and the first is renamed. Then there are two files, and they have no
cluster in common. -/
theorem run_no_cross_links_blank :
    Run (fun s op => op.Admissible s) blankSystem renamedFile ∧
      Live smallMount renamedFile.disk (2, 0) ∧ Live smallMount renamedFile.disk (2, 1) ∧
      WellFormed smallMount renamedFile.disk ∧
      ∀ l l', Owns smallMount renamedFile.disk (entryAt renamedFile.disk (2, 0)) l →
        Owns smallMount renamedFile.disk (entryAt renamedFile.disk (2, 1)) l' → l.Disjoint l' := by
  have hfirst : (Op.write nameA (fun _ => 7) 1).Admissible blankSystem :=
    ⟨⟨by decide, fits_nameA⟩, nofun⟩
  have hsecond : (Op.write nameB (fun _ => 9) 1).Admissible oneFile := by
    obtain ⟨hdisk, hmount, hcwd⟩ := oneFile_eq
    refine ⟨⟨by decide, ?_⟩, nofun⟩
    rw [hdisk, hmount, hcwd]
    exact fits_nameB
  have hthird : (Op.rename nameA nameC).Admissible twoFiles := ⟨trivial, nofun⟩
  have hrun : Run (fun s op => op.Admissible s) blankSystem renamedFile :=
    (blankSystem.run_next 4 _ hfirst).trans
      ((oneFile.run_next 4 _ hsecond).trans (twoFiles.run_next 4 _ hthird))
  have hentries : (entryAt renamedFile.disk (2, 0)).live = true ∧
      (entryAt renamedFile.disk (2, 0)).isEnd = false ∧
      (entryAt renamedFile.disk (2, 1)).live = true := by
    decide +kernel
  have hA : LiveAt smallMount renamedFile.disk 0 0 (2, 0) :=
    ⟨rfl, hentries.1, fun k hk => absurd hk (Nat.not_lt_zero k)⟩
  have hB : LiveAt smallMount renamedFile.disk 0 1 (2, 1) := by
    refine ⟨rfl, hentries.2.2, fun k hk loc hloc => ?_⟩
    obtain rfl : k = 0 := Nat.lt_one_iff.mp hk
    obtain rfl : (2, 0) = loc := Option.some.inj hloc
    exact Bool.eq_false_iff.mp hentries.2.1
  obtain ⟨hwf, hdisjoint⟩ := run_no_cross_links ready_blankSystem hrun
  refine ⟨hrun, ⟨0, 0, .root, hA⟩, ⟨0, 1, .root, hB⟩, hwf, fun l l' hl hl' c hc hc' => ?_⟩
  have hsame := hdisjoint (2, 0) (2, 1) l l' c ⟨0, 0, .root, hA⟩ ⟨0, 1, .root, hB⟩ hl hl' hc hc'
  exact absurd hsame (by decide)

end MasterOS.Fat
