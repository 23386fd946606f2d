/-
# Disk errors

Which calls tell their caller that the disk refused an access. The loops of the driver
report every refusal to the operation they serve. Four operations pass it on in any case;
the other four look away somewhere: `fat_list` takes a refused directory sector for the
end of the directory, `fat_delete` and `fat_rmdir` do not look at the result of
`write_fat`, and `fat_write` does not look at the result of its `fat_delete`.
-/

import MasterOS.Device.Refusal
import MasterOS.Fat.Calls

namespace MasterOS.Fat

open MasterOS.Device MasterOS.Device.Prog

/-! ## The loops report -/

theorem ataWrite_reports (lba : ℕ) (sector : Sector) :
    Reports (fun r => r ≠ 0) (ataWrite lba sector) :=
  ⟨show (if false then (0 : ℤ) else -1) ≠ 0 by decide, trivial⟩

theorem loadEntry_reports (fatBuf : FatBuf) (c : ℕ) :
    Reports (fun _ => False) (loadEntry fatBuf c) := by
  unfold loadEntry
  split_ifs <;> trivial

theorem findFreeCluster_reports (fatBuf : FatBuf) (total : ℕ) :
    Reports (fun _ => False) (findFreeCluster fatBuf total) := by
  unfold findFreeCluster
  dsimp only
  split_ifs <;> trivial

theorem loadFat_reports (m : Mount) (left s : ℕ) (fatBuf : FatBuf) :
    Reports (fun r => r.1 ≠ 0) (loadFat m left s fatBuf) := by
  induction left generalizing s fatBuf with
  | zero => trivial
  | succ left ih =>
      refine ⟨show (-1 : ℤ) ≠ 0 by decide, fun sector => ?_⟩
      exact ih (s + 1) (loadSector fatBuf s sector)

theorem writeFatCopy_reports (fatBuf : FatBuf) (start left s : ℕ) :
    Reports (fun r => r ≠ 0) (writeFatCopy fatBuf start left s) := by
  induction left generalizing s with
  | zero => trivial
  | succ left ih => exact ⟨show (-1 : ℤ) ≠ 0 by decide, ih (s + 1)⟩

theorem writeFatCopies_reports (m : Mount) (fatBuf : FatBuf) (left f : ℕ) :
    Reports (fun r => r ≠ 0) (writeFatCopies m fatBuf left f) := by
  induction left generalizing f with
  | zero => trivial
  | succ left ih =>
      refine (writeFatCopy_reports fatBuf _ m.fatSecs 0).bind (fun r hr => ?_) fun r hr => ?_
      · rw [if_pos hr]
        exact show (-1 : ℤ) ≠ 0 by decide
      · rw [if_neg hr]
        exact ih (f + 1)

theorem writeFat_reports (m : Mount) (fatBuf : FatBuf) :
    Reports (fun r => r ≠ 0) (writeFat m fatBuf) :=
  writeFatCopies_reports m fatBuf m.bpb.fatCount.toNat 0

theorem walkDir_reports (fatBuf : FatBuf) (n c : ℕ) :
    Reports (fun _ => False) (walkDir fatBuf n c) := by
  induction n generalizing c with
  | zero => trivial
  | succ n ih =>
      refine (loadEntry_reports fatBuf c).bind_pure fun next => ?_
      split_ifs
      · trivial
      · exact ih next

theorem walkBack_reports (fatBuf : FatBuf) (n c : ℕ) :
    Reports (fun _ => False) (walkBack fatBuf n c) := by
  induction n generalizing c with
  | zero => trivial
  | succ n ih => exact (loadEntry_reports fatBuf c).bind_pure fun next => ih next

theorem freeChain_reports (fuel : ℕ) (fatBuf : FatBuf) (c : ℕ) :
    Reports (fun _ => False) (freeChain fuel fatBuf c) := by
  induction fuel generalizing fatBuf c with
  | zero => trivial
  | succ fuel ih =>
      unfold freeChain
      split_ifs
      · exact (loadEntry_reports fatBuf c).bind_pure fun next => ih _ next
      · trivial

theorem readDirSector_reports (m : Mount) (dirc : ℕ) (fatBuf : FatBuf) (s : ℕ) :
    Reports (fun r => ∃ code, r = .error code) (readDirSector m dirc fatBuf s) := by
  unfold readDirSector
  dsimp only
  split_ifs
  · trivial
  · exact ⟨⟨-1, rfl⟩, fun _ => trivial⟩
  · trivial
  · refine (walkDir_reports fatBuf _ _).bind_pure fun c => ?_
    cases c with
    | none => trivial
    | some c => exact ⟨⟨-1, rfl⟩, fun _ => trivial⟩

theorem findSlot_reports (m : Mount) (dirc : ℕ) (fatBuf : FatBuf)
    (verdict : RawDirEntry → Verdict) (fuel s : ℕ) :
    Reports (fun r => r = none) (findSlot m dirc fatBuf verdict fuel s) := by
  induction fuel generalizing s with
  | zero => trivial
  | succ fuel ih =>
      refine (readDirSector_reports m dirc fatBuf s).bind (fun r hr => ?_) fun r _ => ?_
      · obtain ⟨code, rfl⟩ := hr
        exact rfl
      · cases r with
        | error code => trivial
        | ok sector =>
            dsimp only
            cases scanSlots verdict sector (List.range 16) with
            | nothing => exact ih _
            | ended => trivial
            | hit i => trivial

theorem writeDirSector_reports (m : Mount) (dirc : ℕ) (fatBuf : FatBuf) (s : ℕ) (sector : Sector) :
    Reports (fun r => r ≠ 0) (writeDirSector m dirc fatBuf s sector) := by
  unfold writeDirSector
  split_ifs
  · exact ataWrite_reports _ sector
  · trivial
  · exact (walkBack_reports fatBuf _ _).bind_pure fun c => ataWrite_reports _ sector

theorem placeEntry_reports (m : Mount) (dirc : ℕ) (fatBuf : FatBuf) (fuel : ℕ) (e : RawDirEntry) :
    Reports (fun r => r ≠ 0) (placeEntry m dirc fatBuf fuel e) := by
  refine (findSlot_reports m dirc fatBuf freeVerdict fuel 0).bind (fun r hr => ?_) fun r _ => ?_
  · rw [hr]
    exact show (-1 : ℤ) ≠ 0 by decide
  · cases r with
    | none => trivial
    | some hit => exact writeDirSector_reports m dirc fatBuf hit.s _

theorem readSectors_reports (lba fileSize bufSize left s bytesRead : ℕ) (buf : ℕ → UInt8) :
    Reports (fun r => ∃ buf, r = .failed buf)
      (readSectors lba fileSize bufSize left s bytesRead buf) := by
  induction left generalizing s bytesRead buf with
  | zero => trivial
  | succ left ih =>
      refine ⟨⟨buf, rfl⟩, fun sector => ?_⟩
      exact reports_ite (fun _ => trivial) fun _ => ih _ _ _

theorem readChain_reports (m : Mount) (fatBuf : FatBuf) (fileSize bufSize fuel c bytesRead : ℕ)
    (buf : ℕ → UInt8) :
    Reports (fun r => r.1 = none) (readChain m fatBuf fileSize bufSize fuel c bytesRead buf) := by
  induction fuel generalizing c bytesRead buf with
  | zero => trivial
  | succ fuel ih =>
      unfold readChain
      split_ifs
      · refine (readSectors_reports _ fileSize bufSize m.spc 0 bytesRead buf).bind
          (fun r hr => ?_) fun r _ => ?_
        · obtain ⟨buf', rfl⟩ := hr
          exact rfl
        · cases r with
          | failed buf' => trivial
          | finished n buf' => trivial
          | more n buf' =>
              refine (loadEntry_reports fatBuf c).bind_pure fun next => ?_
              split_ifs
              · trivial
              · exact ih next n buf'
      · trivial

theorem writeSectors_reports (data : ℕ → UInt8) (lba left sct bytesLeft offset : ℕ) :
    Reports (fun r => r = none) (writeSectors data lba left sct bytesLeft offset) := by
  induction left generalizing sct bytesLeft offset with
  | zero => trivial
  | succ left ih =>
      refine (ataWrite_reports _ _).bind (fun r hr => ?_) fun r hr => ?_
      · rw [if_pos hr]
        exact rfl
      · rw [if_neg hr]
        exact reports_ite (fun _ => trivial) fun _ => ih _ _ _

theorem writeClusters_reports (m : Mount) (total : ℕ) (data : ℕ → UInt8) (size fuel : ℕ)
    (bytesLeft firstCluster prevCluster : ℕ) (fatBuf : FatBuf) (taken : List ℕ) :
    Reports (fun r => r.complete = false)
      (writeClusters m total data size fuel bytesLeft firstCluster prevCluster fatBuf taken) := by
  induction fuel generalizing bytesLeft firstCluster prevCluster fatBuf taken with
  | zero => trivial
  | succ fuel ih =>
      unfold writeClusters
      by_cases hdone : bytesLeft = 0
      · rw [if_pos hdone]
        trivial
      rw [if_neg hdone]
      refine (findFreeCluster_reports fatBuf total).bind_pure fun c => ?_
      by_cases hc : c = 0
      · rw [if_pos hc]
        trivial
      rw [if_neg hc]
      refine (writeSectors_reports data _ m.spc 0 bytesLeft _).bind (fun r hr => ?_) fun r _ => ?_
      · rw [hr]
        exact rfl
      · cases r with
        | none => trivial
        | some n => exact ih _ _ _ _ _

/-! ## The operations that report -/

/-- The rule for the prologue. -/
theorem withFat_reports {α : Type} {bad : α × Driver → Prop} {st : Driver} {owner : Owner}
    {failed : α} {body : FatBuf → FatProg (α × Driver)}
    (hfailed : ∀ fatBuf, bad (failed, st.keepBuf owner fatBuf))
    (hbody : ∀ fatBuf, Reports bad (body fatBuf)) :
    Reports bad (withFat st owner failed body) := by
  unfold withFat
  split_ifs
  · refine (loadFat_reports st.mount st.mount.fatSecs 0 (st.fatBuf owner)).bind
      (fun r hr => ?_) fun r hr => ?_
    · dsimp only
      rw [if_pos hr]
      exact hfailed r.2
    · dsimp only
      rw [if_neg hr]
      exact hbody r.2
  · trivial

section Operations

variable (fuel : ℕ) (st : Driver)

theorem fatRead_reports (name : CString) (buf : ℕ → UInt8) (bufSize : ℕ) :
    Reports (fun r => r.1.1 < 0) (fatRead fuel st name buf bufSize) := by
  refine withFat_reports (fun _ => show (-1 : ℤ) < 0 by decide) fun fatBuf => ?_
  refine (findSlot_reports st.mount st.currentDirCluster fatBuf (fileVerdict name) fuel 0).bind
    (fun r hr => ?_) fun r _ => ?_
  · rw [hr]
    exact show (-1 : ℤ) < 0 by decide
  · cases r with
    | none => trivial
    | some hit =>
        dsimp only
        split_ifs
        · trivial
        · refine (readChain_reports st.mount fatBuf _ bufSize fuel _ 0 buf).bind
            (fun r hr => ?_) fun r _ => ?_
          · rcases r with ⟨n, buf'⟩
            dsimp only at hr
            rw [hr]
            exact show (-1 : ℤ) < 0 by decide
          · rcases r with ⟨_ | n, buf'⟩ <;> trivial

theorem fatRename_reports (oldName newName : CString) :
    Reports (fun r => r.1 ≠ 0) (fatRename fuel st oldName newName) := by
  unfold fatRename
  refine withFat_reports (fun _ => show (-1 : ℤ) ≠ 0 by decide) fun fatBuf => ?_
  refine (findSlot_reports st.mount st.currentDirCluster fatBuf (fileVerdict oldName) fuel 0).bind
    (fun r hr => ?_) fun r _ => ?_
  · rw [hr]
    exact show (-1 : ℤ) ≠ 0 by decide
  · cases r with
    | none => trivial
    | some hit =>
        exact (writeDirSector_reports _ _ fatBuf hit.s _).bind (fun _ hr => hr) fun _ _ => trivial

theorem storeFile_reports (name : CString) (data : ℕ → UInt8) (size : ℕ) :
    Reports (fun r => r.1.1 ≠ 0) (storeFile fuel st name data size) := by
  have hfail : (-1 : ℤ) ≠ 0 := by decide
  refine withFat_reports (fun _ => hfail) fun fatBuf => ?_
  refine (writeClusters_reports st.mount _ data size fuel size 0 0 fatBuf []).bind
    (fun r hr => ?_) fun r _ => ?_
  · simp only [hr]
    exact hfail
  · dsimp only
    split_ifs
    · refine (writeFat_reports st.mount r.fatBuf).bind (fun code hcode => ?_) fun code hcode => ?_
      · rw [if_pos hcode]
        exact hfail
      · rw [if_neg hcode]
        exact (placeEntry_reports _ _ r.fatBuf fuel _).bind (fun _ hr => hr) fun _ _ => trivial
    · trivial

theorem fatMkdir_reports (name : CString) :
    Reports (fun r => r.1 ≠ 0) (fatMkdir fuel st name) := by
  have hfail : (-1 : ℤ) ≠ 0 := by decide
  have htaken : Reports (fun r => r.1.1 ≠ 0) (fatMkdirTaken fuel st name) := by
    refine withFat_reports (fun _ => hfail) fun fatBuf => ?_
    refine (findFreeCluster_reports fatBuf _).bind_pure fun c => ?_
    by_cases hc : c = 0
    · rw [if_pos hc]
      trivial
    rw [if_neg hc]
    refine (writeFat_reports st.mount _).bind (fun code hcode => ?_) fun code hcode => ?_
    · rw [if_pos hcode]
      exact hfail
    rw [if_neg hcode]
    refine (ataWrite_reports _ _).bind (fun code' hcode' => ?_) fun code' hcode' => ?_
    · rw [if_pos hcode']
      exact hfail
    rw [if_neg hcode']
    exact (placeEntry_reports _ _ _ fuel _).bind (fun _ hr => hr) fun _ _ => trivial
  exact htaken.bind (fun _ hr => hr) fun _ _ => trivial

theorem fatCd_reports (name : CString) : Reports (fun r => r.1 ≠ 0) (fatCd fuel st name) := by
  unfold fatCd
  split_ifs
  · trivial
  · refine withFat_reports (fun _ => show (-1 : ℤ) ≠ 0 by decide) fun fatBuf => ?_
    refine (findSlot_reports _ _ fatBuf (dirVerdict name) fuel 0).bind (fun r hr => ?_)
      fun r _ => ?_
    · rw [hr]
      exact show (-1 : ℤ) ≠ 0 by decide
    · cases r with
      | none => trivial
      | some hit =>
          dsimp only
          split_ifs <;> trivial

end Operations

/-! ## Removing an entry -/

theorem readOnly_loadFat (m : Mount) (left s : ℕ) (fatBuf : FatBuf) :
    ReadOnly (loadFat m left s fatBuf) := by
  induction left generalizing s fatBuf with
  | zero => trivial
  | succ left ih =>
      intro answer
      cases answer with
      | none => trivial
      | some sector => exact ih (s + 1) (loadSector fatBuf s sector)

theorem readOnly_loadEntry (fatBuf : FatBuf) (c : ℕ) : ReadOnly (loadEntry fatBuf c) := by
  unfold loadEntry
  split_ifs <;> trivial

theorem readOnly_walkDir (fatBuf : FatBuf) (n c : ℕ) : ReadOnly (walkDir fatBuf n c) := by
  induction n generalizing c with
  | zero => trivial
  | succ n ih =>
      refine (readOnly_loadEntry fatBuf c).bind fun next => ?_
      split_ifs
      · trivial
      · exact ih next

theorem readOnly_freeChain (fuel : ℕ) (fatBuf : FatBuf) (c : ℕ) :
    ReadOnly (freeChain fuel fatBuf c) := by
  induction fuel generalizing fatBuf c with
  | zero => trivial
  | succ fuel ih =>
      unfold freeChain
      split_ifs
      · exact (readOnly_loadEntry fatBuf c).bind fun next => ih _ next
      · trivial

theorem readOnly_readDirSector (m : Mount) (dirc : ℕ) (fatBuf : FatBuf) (s : ℕ) :
    ReadOnly (readDirSector m dirc fatBuf s) := by
  have hfetch (lba : ℕ) (k : Option Sector → FatProg (Except ℤ Sector))
      (hrefused : ReadOnly (k none)) (hread : ∀ sector, ReadOnly (k (some sector))) :
      ReadOnly (ataRead lba >>= k) := by
    intro answer
    cases answer with
    | none => exact hrefused
    | some sector => exact hread sector
  unfold readDirSector
  dsimp only
  split_ifs
  · trivial
  · exact hfetch _ _ trivial fun _ => trivial
  · trivial
  · refine (readOnly_walkDir fatBuf _ _).bind fun c => ?_
    cases c with
    | none => trivial
    | some c => exact hfetch _ _ trivial fun _ => trivial

theorem readOnly_findSlot (m : Mount) (dirc : ℕ) (fatBuf : FatBuf)
    (verdict : RawDirEntry → Verdict) (fuel s : ℕ) :
    ReadOnly (findSlot m dirc fatBuf verdict fuel s) := by
  induction fuel generalizing s with
  | zero => trivial
  | succ fuel ih =>
      refine (readOnly_readDirSector m dirc fatBuf s).bind fun r => ?_
      cases r with
      | error code => trivial
      | ok sector =>
          dsimp only
          cases scanSlots verdict sector (List.range 16) with
          | nothing => exact ih _
          | ended => trivial
          | hit i => trivial

/-- `fat_delete` and `fat_rmdir` up to their first write: the slot found, and the table
with its chain freed. -/
def removeFind (owner : Owner) (verdict : RawDirEntry → Verdict) (fuel : ℕ) (st : Driver) :
    FatProg (Option (Hit × FatBuf) × Driver) :=
  withFat st owner none fun fatBuf => do
    match ← findSlot st.mount st.currentDirCluster fatBuf verdict fuel 0 with
    | none => .ret (none, st.keepBuf owner fatBuf)
    | some hit => do
        let freed ← freeChain fuel fatBuf hit.entry.firstCluster.toNat
        .ret (some (hit, freed), st.keepBuf owner freed)

/-- `fat_delete` and `fat_rmdir` from their first write on. -/
def removeFound (st : Driver) : Option (Hit × FatBuf) → FatProg (ℤ × Driver)
  | none => .ret (-1, st)
  | some (hit, freed) => do
      let _ ← writeFat st.mount freed
      let r ← writeDirSector st.mount st.currentDirCluster freed hit.s
        (hit.sector.setEntry hit.i hit.entry.markDeleted)
      .ret (r, st)

theorem removeEntry_eq (owner : Owner) (verdict : RawDirEntry → Verdict) (fuel : ℕ)
    (st : Driver) : removeEntry owner verdict fuel st =
      removeFind owner verdict fuel st >>= fun r => removeFound r.2 r.1 := by
  unfold removeEntry removeFind withFat
  by_cases hmounted : st.mount.initialized = true
  · rw [if_pos hmounted, if_pos hmounted, bind_assoc]
    congr 1
    funext r
    by_cases hr : r.1 ≠ 0
    · simp only [if_pos hr, ret_bind]
      rfl
    · simp only [if_neg hr, bind_assoc]
      congr 1
      funext found
      cases found with
      | none => rfl
      | some hit => simp only [bind_assoc, ret_bind]; rfl
  · rw [if_neg hmounted, if_neg hmounted]
    rfl

section Remove

variable (owner : Owner) (verdict : RawDirEntry → Verdict) (fuel : ℕ) (st : Driver)

theorem readOnly_removeFind : ReadOnly (removeFind owner verdict fuel st) := by
  unfold removeFind withFat
  split_ifs
  · refine (readOnly_loadFat st.mount st.mount.fatSecs 0 (st.fatBuf owner)).bind fun r => ?_
    dsimp only
    split_ifs
    · trivial
    · refine (readOnly_findSlot _ _ r.2 verdict fuel 0).bind fun found => ?_
      cases found with
      | none => trivial
      | some hit => exact (readOnly_freeChain fuel r.2 _).bind fun _ => trivial
  · trivial

theorem removeFind_reports :
    Reports (fun r => r.1 = none) (removeFind owner verdict fuel st) := by
  refine withFat_reports (fun _ => rfl) fun fatBuf => ?_
  refine (findSlot_reports _ _ fatBuf verdict fuel 0).bind (fun r hr => ?_) fun r _ => ?_
  · rw [hr]
    exact rfl
  · cases r with
    | none => trivial
    | some hit => exact (freeChain_reports fuel fatBuf _).bind_pure fun _ => trivial

end Remove

theorem walkBack_cases (fatBuf : FatBuf) (n c : ℕ) :
    (∃ fault, walkBack fatBuf n c = .stop fault) ∨ ∃ x, walkBack fatBuf n c = .ret x := by
  induction n generalizing c with
  | zero => exact Or.inr ⟨c, rfl⟩
  | succ n ih =>
      unfold walkBack loadEntry
      split_ifs
      · exact ih _
      · exact Or.inl ⟨_, rfl⟩

/-- A directory sector is written back in one write, unless its address is out of reach. -/
theorem writeDirSector_cases (m : Mount) (dirc : ℕ) (fatBuf : FatBuf) (s : ℕ) (sector : Sector) :
    (∃ fault, writeDirSector m dirc fatBuf s sector = .stop fault) ∨
      ∃ lba, writeDirSector m dirc fatBuf s sector = ataWrite lba sector := by
  unfold writeDirSector
  split_ifs
  · exact Or.inr ⟨_, rfl⟩
  · exact Or.inl ⟨_, rfl⟩
  · rcases walkBack_cases fatBuf (s / m.spc) (dirc % 2 ^ 16) with ⟨fault, h⟩ | ⟨x, h⟩
    · exact Or.inl ⟨fault, by rw [h]; rfl⟩
    · exact Or.inr ⟨_, by rw [h]; rfl⟩

theorem writesAll_writeFat (m : Mount) (fatBuf : FatBuf) :
    WritesAll (fun r => r ≠ 0) (m.bpb.fatCount.toNat * m.fatSecs) (writeFat m fatBuf) := by
  have hcopy (start left s : ℕ) :
      WritesAll (fun r => r ≠ 0) left (writeFatCopy fatBuf start left s) := by
    induction left generalizing s with
    | zero => exact fun h => h rfl
    | succ left ih => exact ⟨⟨-1, rfl, by decide⟩, ih (s + 1)⟩
  have hcopies (left f : ℕ) :
      WritesAll (fun r => r ≠ 0) (left * m.fatSecs) (writeFatCopies m fatBuf left f) := by
    induction left generalizing f with
    | zero =>
        rw [Nat.zero_mul]
        exact fun h => h rfl
    | succ left ih =>
        rw [Nat.succ_mul, Nat.add_comm]
        refine (hcopy _ m.fatSecs 0).bind (fun r hr => ⟨-1, if_pos hr, by decide⟩) fun r hr => ?_
        rw [if_neg hr]
        exact ih (f + 1)
  exact hcopies m.bpb.fatCount.toNat 0

/-- A run that ends well has met no refusal. -/
def TellsRefusals {α : Type} (success : α → Prop) (p : FatProg α) (answers : Answers) (d : Disk) :
    Prop :=
  ∀ value d', p.run answers d = (.ok value, d') → success value → p.Answered answers d

theorem TellsRefusals.of_reports {α : Type} {success bad : α → Prop} {p : FatProg α}
    (h : Reports bad p) (hgood : ∀ value, success value → ¬ bad value) (answers : Answers)
    (d : Disk) : TellsRefusals success p answers d :=
  fun value _ hrun hsuccess => h.answered hrun (hgood value hsuccess)

/-- No write of the table is refused, or the first that is refused is directly followed by
another refusal. -/
def SecondRefused (n : ℕ) (answers : Answers) : Prop :=
  ∀ k < n, (∀ j < k, answers.writes j = .done) → answers.writes k ≠ .done →
    answers.writes (k + 1) ≠ .done

theorem run_ataWrite_ret {α : Type} (lba : ℕ) (sector : Sector) (f : ℤ → α) (answers : Answers)
    (d : Disk) : ∃ d', (ataWrite lba sector >>= fun r => .ret (f r)).run answers d =
      (.ok (f (if answers.writes 0 = .done then 0 else -1)), d') := by
  unfold ataWrite
  rw [write_bind]
  cases hwrite : answers.writes 0 <;> simp [run, hwrite]

/-- The writes of `fat_delete` and `fat_rmdir`: the table's result is not looked at, so a
refusal shows only when the directory's write is refused as well. -/
theorem tellsRefusals_unchecked_iff {n : ℕ} {p : FatProg ℤ} (hp : WritesAll (fun r => r ≠ 0) n p)
    (lba : ℕ) (sector : Sector) (st : Driver) (answers : Answers) (d : Disk) :
    TellsRefusals (fun r : ℤ × Driver => r.1 = 0)
      (p >>= fun _ => ataWrite lba sector >>= fun r => .ret (r, st)) answers d ↔
    SecondRefused n answers := by
  constructor
  · intro htells k hk hdone hrefused hnext
    obtain ⟨hnot, ⟨value, d₁, hrun⟩, hleft⟩ := hp.run_of_refused d hk hdone hrefused
    obtain ⟨d₂, hlast⟩ := run_ataWrite_ret lba sector (fun r => (r, st)) (p.left answers d) d₁
    rw [hleft, if_pos hnext] at hlast
    refine hnot (answered_bind_iff.mp (htells (0, st) d₂ ?_ rfl)).1
    rw [run_bind, hrun]
    exact hlast
  · intro hsecond value d' hrun hzero
    rw [run_bind] at hrun
    by_cases hall : ∀ j < n, answers.writes j = .done
    · obtain ⟨hanswered, ⟨code, d₁, hfirst⟩, hleft⟩ := hp.run_of_done d hall
      rw [hfirst] at hrun
      refine answered_bind_iff.mpr ⟨hanswered, fun code' d₂ hfirst' => ?_⟩
      obtain ⟨rfl, rfl⟩ : (code, d₁) = (code', d₂) := by
        have heq := hfirst.symm.trans hfirst'
        injection heq with hcode hdisk
        injection hcode with hcode
        rw [hcode, hdisk]
      have hreports : Reports (fun r : ℤ × Driver => r.1 ≠ 0)
          (ataWrite lba sector >>= fun r => .ret (r, st)) :=
        (ataWrite_reports lba sector).bind (fun _ hr => hr) fun _ _ => trivial
      exact hreports.answered hrun fun hne => hne hzero
    · -- the first refusal is followed by another, which the last write meets
      push Not at hall
      have hfind := Nat.find_spec hall
      have hbefore : ∀ j < Nat.find hall, answers.writes j = .done := fun j hj => by
        by_contra hne
        exact Nat.find_min hall hj ⟨lt_trans hj hfind.1, hne⟩
      obtain ⟨-, ⟨code, d₁, hfirst⟩, hleft⟩ := hp.run_of_refused d hfind.1 hbefore hfind.2
      have hnext := hsecond _ hfind.1 hbefore hfind.2
      rw [hfirst] at hrun
      obtain ⟨d₂, hlast⟩ := run_ataWrite_ret lba sector (fun r => (r, st)) (p.left answers d) d₁
      rw [hleft, if_neg hnext] at hlast
      have heq := hlast.symm.trans hrun
      injection heq with hvalue
      injection hvalue with hvalue
      rw [← hvalue] at hzero
      exact absurd (show (-1 : ℤ) = 0 from hzero) (by decide)

theorem answered_bind_iff_of_run {α β : Type} {p : FatProg α} {f : α → FatProg β}
    {answers : Answers} {d d₁ : Disk} {value : α} (hanswered : p.Answered answers d)
    (hrun : p.run answers d = (.ok value, d₁)) :
    (p >>= f).Answered answers d ↔ (f value).Answered (p.left answers d) d₁ := by
  rw [answered_bind_iff, hrun]
  constructor
  · exact fun h => h.2 value d₁ rfl
  · intro h
    refine ⟨hanswered, fun value' d' heq => ?_⟩
    injection heq with hvalue hdisk
    injection hvalue with hvalue
    rw [← hvalue, ← hdisk]
    exact h

/-- Behind an answered program, what tells of refusals is the program that follows. -/
theorem tellsRefusals_bind_iff {α β : Type} {success : β → Prop} {p : FatProg α}
    {f : α → FatProg β} {answers : Answers} {d d₁ : Disk} {value : α}
    (hanswered : p.Answered answers d) (hrun : p.run answers d = (.ok value, d₁)) :
    TellsRefusals success (p >>= f) answers d ↔
      TellsRefusals success (f value) (p.left answers d) d₁ := by
  unfold TellsRefusals
  rw [run_bind, hrun, answered_bind_iff_of_run hanswered hrun]

/-- A program that hides refusals tells of them only when it meets none. -/
theorem tellsRefusals_iff_answered {α : Type} {success : α → Prop} {p : FatProg α}
    (h : Hides success p) {answers : Answers} {d : Disk} :
    TellsRefusals success p answers d ↔ p.Answered answers d := by
  constructor
  · intro htells
    by_contra hrefused
    obtain ⟨value, hrun, hsuccess⟩ := h.exists_run hrefused
    exact hrefused (htells value d hrun hsuccess)
  · exact fun hanswered _ _ _ _ => hanswered

/-- A number taken from the result is a success when the result is. -/
theorem tellsRefusals_map_iff {α β : Type} {success : β → Prop} {p : FatProg α} {f : α → β}
    {answers : Answers} {d : Disk} :
    TellsRefusals success (p >>= fun value => .ret (f value)) answers d ↔
      TellsRefusals (fun value => success (f value)) p answers d := by
  have hanswered : (p >>= fun value => (.ret (f value) : FatProg β)).Answered answers d ↔
      p.Answered answers d := by
    rw [answered_bind_iff]
    exact and_iff_left fun _ _ _ => trivial
  unfold TellsRefusals
  rw [hanswered, run_bind]
  rcases p.run answers d with ⟨fault | value, d₁⟩
  · simp
  · simp [run]

/-- When a removal tells of refusals: it has nothing to remove, or a read is refused, or the
first write refused is the last one or is directly followed by another. The counts are those
of the run in which everything is answered. -/
def RemovalTells (p : FatProg (ℤ × Driver)) (answers : Answers) (d : Disk) : Prop :=
  (∀ st' writes, ¬ p.Returns d (0, st') writes) ∨
    (∃ n < p.readCount d, answers.reads n = false) ∨
    SecondRefused ((p.exec d).2.length - 1) answers

/-- The writes of a removal, behind its answered search. -/
theorem removeFound_tellsRefusals_iff
    {p : FatProg (Option (Hit × FatBuf) × Driver)} {answers : Answers} {d : Disk}
    (hreadOnly : ReadOnly p) (hanswered : p.Answered answers d) {hit : Hit × FatBuf} {st : Driver}
    (hreturns : p.Returns d (some hit, st) []) :
    TellsRefusals (fun r : ℤ × Driver => r.1 = 0) (removeFound st (some hit))
        (p.left answers d) d ↔
      RemovalTells (p >>= fun r => removeFound r.2 r.1) answers d := by
  obtain ⟨hit, freed⟩ := hit
  have hwrites := writesAll_writeFat st.mount freed
  obtain ⟨hcount, code, writes, hfat, hlen⟩ := hwrites.exec_eq d
  have hleft : (p.left answers d).writes = answers.writes := hreadOnly.left_writes answers d
  rcases writeDirSector_cases st.mount st.currentDirCluster freed hit.s
    (hit.sector.setEntry hit.i hit.entry.markDeleted) with ⟨fault, hlast⟩ | ⟨lba, hlast⟩
  · have hfound : removeFound st (some (hit, freed)) =
        writeFat st.mount freed >>= fun _ => .stop fault := by
      rw [removeFound, hlast]
      rfl
    constructor
    · intro _
      left
      intro st' writes' hzero
      rw [Returns, hreturns.exec_bind] at hzero
      dsimp only at hzero
      rw [hfound, applyWrites_nil, hfat.exec_bind] at hzero
      injection hzero with hresult
      injection hresult
    · intro _ value d' hrun
      rw [hfound, run_bind] at hrun
      rcases hfirst : (writeFat st.mount freed).run (p.left answers d) d with
        ⟨fault' | value', d₁⟩ <;>
      · rw [hfirst] at hrun
        injection hrun with hresult
        injection hresult
  · have hfound : removeFound st (some (hit, freed)) = writeFat st.mount freed >>= fun _ =>
        ataWrite lba (hit.sector.setEntry hit.i hit.entry.markDeleted) >>= fun r =>
          .ret (r, st) := by
      rw [removeFound, hlast]
    have hall : (p >>= fun r => removeFound r.2 r.1).Returns d (0, st)
        (writes ++ [(lba % 2 ^ 28, hit.sector.setEntry hit.i hit.entry.markDeleted)]) := by
      refine hreturns.bind_nil ?_
      rw [hfound]
      exact hfat.bind rfl
    have hreads : (p >>= fun r => removeFound r.2 r.1).readCount d = p.readCount d := by
      rw [readCount_bind, show p.exec d = _ from hreturns]
      dsimp only
      rw [hfound, readCount_bind, applyWrites_nil, hcount, show (writeFat _ _).exec d = _ from hfat]
      rfl
    have hlength : ((p >>= fun r => removeFound r.2 r.1).exec d).2.length - 1 =
        st.mount.bpb.fatCount.toNat * st.mount.fatSecs := by
      rw [show (p >>= fun r => removeFound r.2 r.1).exec d = _ from hall, List.length_append, hlen,
        List.length_singleton, Nat.add_sub_cancel]
    have hsame : SecondRefused (st.mount.bpb.fatCount.toNat * st.mount.fatSecs)
        (p.left answers d) ↔
        SecondRefused (st.mount.bpb.fatCount.toNat * st.mount.fatSecs) answers := by
      unfold SecondRefused
      rw [hleft]
    rw [hfound, tellsRefusals_unchecked_iff hwrites, hsame, RemovalTells, hlength, hreads]
    constructor
    · exact fun h => Or.inr (Or.inr h)
    · rintro (hnone | ⟨n, hn, hread⟩ | h)
      · exact absurd hall (hnone st _)
      · rw [(answered_iff.mp hanswered).1 n hn] at hread
        exact absurd hread (by decide)
      · exact h

section Remove

variable (owner : Owner) (verdict : RawDirEntry → Verdict) (fuel : ℕ) (st : Driver)
  (answers : Answers) (d : Disk)

/-- **`fat_delete` and `fat_rmdir` tell of a refusal** exactly under that condition. -/
theorem removeEntry_tellsRefusals_iff :
    TellsRefusals (fun r : ℤ × Driver => r.1 = 0) (removeEntry owner verdict fuel st) answers d ↔
      RemovalTells (removeEntry owner verdict fuel st) answers d := by
  have hreadOnly := readOnly_removeFind owner verdict fuel st
  have hreports := removeFind_reports owner verdict fuel st
  have hexec := hreadOnly.exec_snd d
  rw [removeEntry_eq]
  by_cases hanswered : (removeFind owner verdict fuel st).Answered answers d
  · have hrun := hanswered.run_eq
    rw [hexec, applyWrites_nil] at hrun
    rcases hfind : ((removeFind owner verdict fuel st).exec d).1 with fault | ⟨found, st'⟩
    · -- the search does not end: nothing is returned, refused or not
      rw [hfind] at hrun
      constructor
      · intro _
        left
        intro st'' writes hreturns
        rw [Returns, exec_bind, show (removeFind owner verdict fuel st).exec d = (.error fault, [])
          from Prod.ext hfind hexec] at hreturns
        injection hreturns with hresult
        injection hresult
      · intro _ value d' hrun'
        rw [run_bind, hrun] at hrun'
        injection hrun' with hresult
        injection hresult
    · have hreturns : (removeFind owner verdict fuel st).Returns d (found, st') [] :=
        Prod.ext hfind hexec
      rw [hfind] at hrun
      cases found with
      | none =>
          constructor
          · intro _
            left
            intro st'' writes hzero
            obtain ⟨heq, -⟩ := hzero.unique (hreturns.bind_nil rfl)
            injection heq with hcode
            exact absurd hcode (by decide)
          · intro _ value d' hrun' hzero
            rw [run_bind, hrun] at hrun'
            injection hrun' with hresult
            injection hresult with hresult
            rw [← hresult] at hzero
            exact absurd (show (-1 : ℤ) = 0 from hzero) (by decide)
      | some found =>
          rw [tellsRefusals_bind_iff hanswered hrun]
          exact removeFound_tellsRefusals_iff hreadOnly hanswered hreturns
  · -- a refused read ends the search, and the call with it
    constructor
    · intro _
      right
      left
      rw [answered_iff, hexec, not_and_or] at hanswered
      rcases hanswered with hreads | hwrites
      · push Not at hreads
        obtain ⟨n, hn, hread⟩ := hreads
        refine ⟨n, ?_, by simpa using hread⟩
        rw [readCount_bind]
        omega
      · exact absurd (fun n hn => absurd hn (Nat.not_lt_zero n)) hwrites
    · intro _ value d' hrun hzero
      rw [run_bind] at hrun
      rcases hfind : (removeFind owner verdict fuel st).run answers d with
        ⟨fault | ⟨_ | found, st'⟩, d₁⟩
      · rw [hfind] at hrun
        injection hrun with hresult
        injection hresult
      · rw [hfind] at hrun
        injection hrun with hresult
        injection hresult with hresult
        rw [← hresult] at hzero
        exact absurd (show (-1 : ℤ) = 0 from hzero) (by decide)
      · exact absurd (hreports.answered hfind (by simp)) hanswered

end Remove

/-! ## Listing a directory -/

theorem hides_readDirSector (m : Mount) (dirc : ℕ) (fatBuf : FatBuf) (s : ℕ) :
    Hides (fun r => ∃ code, r = .error code) (readDirSector m dirc fatBuf s) := by
  have hfetch (lba : ℕ) (k : Option Sector → FatProg (Except ℤ Sector))
      (hrefused : k none = .ret (.error (-1)))
      (hread : ∀ sector, Hides (fun r => ∃ code, r = .error code) (k (some sector))) :
      Hides (fun r => ∃ code, r = .error code) (ataRead lba >>= k) :=
    ⟨⟨.error (-1), hrefused, -1, rfl⟩, hread⟩
  have hwalk (n c : ℕ) : Hides (fun _ => False) (walkDir fatBuf n c) := by
    induction n generalizing c with
    | zero => trivial
    | succ n ih =>
        unfold walkDir loadEntry
        split_ifs
        · rw [ret_bind]
          split_ifs
          · trivial
          · exact ih _
        · trivial
  unfold readDirSector
  dsimp only
  split_ifs
  · trivial
  · exact hfetch _ _ rfl fun _ => trivial
  · trivial
  · refine (hwalk _ _).bind (fun _ h => h.elim) fun c _ => ?_
    cases c with
    | none => trivial
    | some c => exact hfetch _ _ rfl fun _ => trivial

/-- A refused directory sector ends the listing like the end of the directory. -/
theorem hides_listSectors (m : Mount) (dirc : ℕ) (fatBuf : FatBuf) (max : ℤ) (fuel s : ℕ)
    (entries : List Fat12Entry) :
    Hides (fun _ => True) (listSectors m dirc fatBuf max fuel s entries) := by
  induction fuel generalizing s entries with
  | zero => trivial
  | succ fuel ih =>
      unfold listSectors
      split_ifs
      · refine (hides_readDirSector m dirc fatBuf s).bind (fun r hr => ?_) fun r _ => ?_
        · obtain ⟨code, rfl⟩ := hr
          exact ⟨entries, rfl, trivial⟩
        · cases r with
          | error code => trivial
          | ok sector =>
              dsimp only
              rcases listSlots max sector (List.range 16) entries with ⟨_ | _, entries'⟩
              · exact ih _ entries'
              · trivial
      · trivial

/-- When a listing tells of refusals: it meets none, or one among its reads of the table. -/
def ListingTells (fuel : ℕ) (st : Driver) (max : ℤ) (answers : Answers) (d : Disk) : Prop :=
  (∃ n < st.mount.fatSecs, answers.reads n = false) ∨
    ∀ n < (fatList fuel st max).readCount d, answers.reads n = true

theorem loadFat_readCount (m : Mount) (left s : ℕ) (fatBuf : FatBuf) (d : Disk) :
    (loadFat m left s fatBuf).readCount d = left := by
  induction left generalizing s fatBuf with
  | zero => rfl
  | succ left ih => exact congrArg (· + 1) (ih (s + 1) _)

section List

variable (fuel : ℕ) (st : Driver) (max : ℤ) (answers : Answers) (d : Disk)

theorem readOnly_fatList : ReadOnly (fatList fuel st max) := by
  have hsectors (fatBuf : FatBuf) (n s : ℕ) (entries : List Fat12Entry) :
      ReadOnly (listSectors st.mount st.currentDirCluster fatBuf max n s entries) := by
    induction n generalizing s entries with
    | zero => trivial
    | succ n ih =>
        unfold listSectors
        split_ifs
        · refine (readOnly_readDirSector _ _ fatBuf s).bind fun r => ?_
          cases r with
          | error code => trivial
          | ok sector =>
              dsimp only
              rcases listSlots max sector (List.range 16) entries with ⟨_ | _, entries'⟩
              · exact ih _ entries'
              · trivial
        · trivial
  unfold fatList withFat
  split_ifs
  · refine (readOnly_loadFat st.mount st.mount.fatSecs 0 (st.fatBuf .list)).bind fun r => ?_
    dsimp only
    split_ifs
    · trivial
    · exact (hsectors r.2 fuel 0 []).bind fun _ => trivial
  · trivial

/-- **`fat_list` tells of a refusal** exactly when it is one of a table sector. -/
theorem fatList_tellsRefusals_iff :
    TellsRefusals (fun r : (ℤ × List Fat12Entry) × Driver => 0 ≤ r.1.1) (fatList fuel st max)
        answers d ↔ ListingTells fuel st max answers d := by
  have hreads : (fatList fuel st max).Answered answers d ↔
      ∀ n < (fatList fuel st max).readCount d, answers.reads n = true := by
    rw [answered_iff, (readOnly_fatList fuel st max).exec_snd d]
    exact and_iff_left fun n hn => absurd hn (Nat.not_lt_zero n)
  have hload : (loadFat st.mount st.mount.fatSecs 0 (st.fatBuf .list)).Answered answers d ↔
      ∀ n < st.mount.fatSecs, answers.reads n = true := by
    rw [answered_iff, loadFat_readCount, (readOnly_loadFat _ _ 0 _).exec_snd d]
    exact and_iff_left fun n hn => absurd hn (Nat.not_lt_zero n)
  rw [ListingTells, ← hreads]
  by_cases hmounted : st.mount.initialized = true
  · have hlist : fatList fuel st max =
        loadFat st.mount st.mount.fatSecs 0 (st.fatBuf .list) >>= fun r =>
          if r.1 ≠ 0 then .ret (((-1 : ℤ), []), st.keepBuf .list r.2)
          else listSectors st.mount st.currentDirCluster r.2 max fuel 0 [] >>= fun entries =>
            .ret (((entries.length : ℤ), entries), st.keepBuf .list r.2) := if_pos hmounted
    by_cases hanswered : (loadFat st.mount st.mount.fatSecs 0 (st.fatBuf .list)).Answered answers d
    · have hnone : ¬ ∃ n < st.mount.fatSecs, answers.reads n = false := by
        intro ⟨n, hn, hread⟩
        rw [hload.mp hanswered n hn] at hread
        exact absurd hread (by decide)
      have hrun := hanswered.run_eq
      rw [loadFat_returns_loadedTable, applyWrites_nil] at hrun
      rw [or_iff_right hnone, hlist, tellsRefusals_bind_iff hanswered hrun, answered_bind_iff_of_run
        hanswered hrun, if_neg (not_not.mpr rfl)]
      refine tellsRefusals_iff_answered ((hides_listSectors _ _ _ max fuel 0 []).bind
        (fun entries _ => ⟨_, rfl, ?_⟩) fun _ h => absurd trivial h)
      exact Int.natCast_nonneg entries.length
    · have hrefused : ∃ n < st.mount.fatSecs, answers.reads n = false := by
        rw [hload] at hanswered
        push Not at hanswered
        simpa using hanswered
      refine iff_of_true (fun value d' hrun hsuccess => ?_) (Or.inl hrefused)
      rw [hlist, run_bind] at hrun
      rcases hfirst : (loadFat st.mount st.mount.fatSecs 0 (st.fatBuf .list)).run answers d with
        ⟨fault | r, d₁⟩
      · rw [hfirst] at hrun
        injection hrun with hresult
        injection hresult
      · have hbad : r.1 ≠ 0 := by
          by_contra hzero
          exact hanswered ((loadFat_reports _ _ 0 _).answered hfirst (not_not.mpr hzero))
        rw [hfirst] at hrun
        dsimp only at hrun
        rw [if_pos hbad] at hrun
        injection hrun with hresult
        injection hresult with hresult
        rw [← hresult] at hsuccess
        exact absurd (show (0 : ℤ) ≤ -1 from hsuccess) (by decide)
  · have hanswered : (fatList fuel st max).Answered answers d := by
      rw [fatList, withFat, if_neg hmounted]
      trivial
    exact iff_of_true (fun _ _ _ _ => hanswered) (Or.inr hanswered)

end List

/-! ## Writing a file -/

/-- Behind a program whose refusals are not looked at. The second program reports its own,
so a success is one of an answered run of it. -/
theorem tellsRefusals_ignored_iff {α β : Type} {success : β → Prop} {p : FatProg α}
    {f : α → FatProg β} (hreports : ∀ value, Reports (fun r => ¬ success r) (f value))
    {answers : Answers} {d : Disk} :
    TellsRefusals success (p >>= f) answers d ↔
      p.Answered answers d ∨ ∀ value d', p.run answers d = (.ok value, d') →
        ¬ (f value).Answered (p.left answers d) d' ∨
          ∀ result writes, (f value).Returns d' result writes → ¬ success result := by
  constructor
  · intro htells
    by_cases hanswered : p.Answered answers d
    · exact Or.inl hanswered
    · refine Or.inr fun value d' hrun => ?_
      by_contra hgood
      push Not at hgood
      obtain ⟨hrest, result, writes, hreturns, hsuccess⟩ := hgood
      have hboth : (p >>= f).run answers d = (.ok result, applyWrites writes d') := by
        rw [run_bind, hrun]
        dsimp only
        rw [hrest.run_eq, show (f value).exec d' = _ from hreturns]
      exact hanswered (answered_bind_iff.mp (htells result _ hboth hsuccess)).1
  · intro h result d' hrun hsuccess
    rw [run_bind] at hrun
    rcases hfirst : p.run answers d with ⟨fault | value, d₁⟩
    · rw [hfirst] at hrun
      injection hrun with hresult
      injection hresult
    · rw [hfirst] at hrun
      have hrest := (hreports value).answered hrun (not_not.mpr hsuccess)
      rcases h with hanswered | h
      · exact (answered_bind_iff_of_run hanswered hfirst).mpr hrest
      · rcases h value d₁ hfirst with hnot | hnever
        · exact absurd hrest hnot
        · have heq := hrest.run_eq.symm.trans hrun
          have hreturns : (f value).Returns d₁ result ((f value).exec d₁).2 :=
            Prod.ext (Prod.ext_iff.mp heq).1 rfl
          exact absurd hsuccess (hnever result _ hreturns)

/-- When a write tells of refusals: its `fat_delete` meets none, or what follows meets one,
or fails in any case. -/
def WritingTells (fuel : ℕ) (st : Driver) (name : CString) (data : ℕ → UInt8) (size : ℕ)
    (answers : Answers) (d : Disk) : Prop :=
  (fatDelete fuel st name).Answered answers d ∨
    ∀ r d', (fatDelete fuel st name).run answers d = (.ok r, d') →
      ¬ (storeFile fuel r.2 name data size).Answered ((fatDelete fuel st name).left answers d) d' ∨
        ∀ result writes, (storeFile fuel r.2 name data size).Returns d' result writes →
          result.1.1 ≠ 0

/-- **`fat_write` tells of a refusal** exactly under that condition. -/
theorem fatWrite_tellsRefusals_iff (fuel : ℕ) (st : Driver) (name : CString) (data : ℕ → UInt8)
    (size : ℕ) (answers : Answers) (d : Disk) :
    TellsRefusals (fun r : ℤ × Driver => r.1 = 0) (fatWrite fuel st name data size) answers d ↔
      WritingTells fuel st name data size answers d := by
  by_cases hmounted : st.mount.initialized = true
  · have htaken : TellsRefusals (fun r : ℤ × Driver => r.1 = 0)
        (fatWrite fuel st name data size) answers d ↔
        TellsRefusals (fun r : (ℤ × List ℕ) × Driver => r.1.1 = 0)
          (fatDelete fuel st name >>= fun r => storeFile fuel r.2 name data size) answers d := by
      have heq : fatWrite fuel st name data size =
          (fatDelete fuel st name >>= fun r => storeFile fuel r.2 name data size) >>= fun r =>
            .ret (r.1.1, r.2) := by
        rw [fatWrite, fatWriteTaken, if_pos hmounted]
      rw [heq]
      exact tellsRefusals_map_iff
    have hreports (r : ℤ × Driver) : Reports (fun r : (ℤ × List ℕ) × Driver => ¬ r.1.1 = 0)
        (storeFile fuel r.2 name data size) := storeFile_reports fuel r.2 name data size
    exact htaken.trans (tellsRefusals_ignored_iff hreports)
  · have hanswered : (fatWrite fuel st name data size).Answered answers d := by
      rw [fatWrite, fatWriteTaken, if_neg hmounted]
      trivial
    have hdelete : (fatDelete fuel st name).Answered answers d := by
      rw [fatDelete, removeEntry, withFat, if_neg hmounted]
      trivial
    exact iff_of_true (fun _ _ _ _ => hanswered) (Or.inl hdelete)

/-! ## Every call -/

/-- The values a call succeeds with: a count, or 0. -/
def Call.Success : Call → ℤ → Prop
  | .list _, r => 0 ≤ r
  | .read .., r => 0 ≤ r
  | .op _, r => r = 0

/-- When a call tells of refusals. -/
def Call.TellsWhen (fuel : ℕ) (st : Driver) (answers : Answers) (d : Disk) : Call → Prop
  | .list max => ListingTells fuel st max answers d
  | .op (.write name data size) => WritingTells fuel st name data size answers d
  | .op (.delete name) => RemovalTells (fatDelete fuel st name) answers d
  | .op (.rmdir name) => RemovalTells (fatRmdir fuel st name) answers d
  | _ => True

/-- **Which calls tell of refusals.** A call that succeeds has met no refusal, exactly under
its condition; `fat_read`, `fat_rename`, `fat_mkdir` and `fat_cd` have none. -/
theorem Call.tellsRefusals_iff (fuel : ℕ) (st : Driver) (call : Call) (answers : Answers)
    (d : Disk) :
    TellsRefusals (fun r => call.Success r.1) (call.run fuel st) answers d ↔
      call.TellsWhen fuel st answers d := by
  cases call with
  | list max => exact tellsRefusals_map_iff.trans (fatList_tellsRefusals_iff fuel st max answers d)
  | read name buf bufSize =>
      refine iff_of_true (tellsRefusals_map_iff.mpr ?_) trivial
      exact .of_reports (fatRead_reports fuel st name buf bufSize) (fun _ h => not_lt.mpr h) answers d
  | op o =>
      cases o with
      | write name data size => exact fatWrite_tellsRefusals_iff fuel st name data size answers d
      | delete name =>
          exact removeEntry_tellsRefusals_iff .delete (fileVerdict name) fuel st answers d
      | rmdir name => exact removeEntry_tellsRefusals_iff .rmdir (dirVerdict name) fuel st answers d
      | rename oldName newName =>
          refine iff_of_true ?_ trivial
          exact .of_reports (fatRename_reports fuel st oldName newName) (fun _ h => not_not.mpr h)
            answers d
      | mkdir name =>
          refine iff_of_true ?_ trivial
          exact .of_reports (fatMkdir_reports fuel st name) (fun _ h => not_not.mpr h) answers d
      | cd name =>
          refine iff_of_true ?_ trivial
          exact .of_reports (fatCd_reports fuel st name) (fun _ h => not_not.mpr h) answers d

/-- A device that refuses the first write and answers everything else. -/
def firstWriteRefused : Answers where
  reads _ := true
  writes n := if n = 0 then .refused else .done

/-- The delete of a file whose table write is refused returns 0: the slot is marked, and the
chain stays allocated. -/
theorem not_tellsRefusals_fileDisk :
    ((fatDelete 4 (freshDriver smallMount) nameA).run firstWriteRefused fileDisk).1.map Prod.fst =
        .ok 0 ∧
      ¬ TellsRefusals (fun r => (Call.op (.delete nameA)).Success r.1)
        ((Call.op (.delete nameA)).run 4 (freshDriver smallMount)) firstWriteRefused fileDisk := by
  have hrun : ((fatDelete 4 (freshDriver smallMount) nameA).run firstWriteRefused
      fileDisk).1.map Prod.fst = .ok 0 := by decide +kernel
  refine ⟨hrun, fun htells => ?_⟩
  rcases hresult : (fatDelete 4 (freshDriver smallMount) nameA).run firstWriteRefused fileDisk with
    ⟨fault | ⟨r, st⟩, d⟩
  · rw [hresult] at hrun
    injection hrun
  · rw [hresult] at hrun
    injection hrun with hzero
    have hanswered := (answered_iff.mp (htells (r, st) d hresult hzero)).2 0
    have hwrites : 0 < ((fatDelete 4 (freshDriver smallMount) nameA).exec fileDisk).2.length := by
      decide +kernel
    exact absurd (hanswered hwrites) (by decide)

end MasterOS.Fat
