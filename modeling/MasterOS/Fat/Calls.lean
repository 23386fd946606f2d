/-
# All calls, on any device

The eight operations that work on a directory, as one type, and what every one of them
does whatever the device answers: the mounted volume stays, and `fat_list`, `fat_read` and
`fat_cd` change their table buffers only in the part that `load_fat` fills.
-/

import MasterOS.Fat.Runs
import MasterOS.Fat.Listing

namespace MasterOS.Fat

open MasterOS.Device MasterOS.Device.Prog

/-- A call to the driver, with the two that only read. -/
inductive Call
  | list (max : ℤ)
  | read (name : CString) (buf : ℕ → UInt8) (bufSize : ℕ)
  | op (o : Op)

/-- The program a call runs, with the number it returns. -/
def Call.run (fuel : ℕ) (st : Driver) : Call → FatProg (ℤ × Driver)
  | .list max => do
      let ((r, _), st) ← fatList fuel st max
      .ret (r, st)
  | .read name buf bufSize => do
      let ((r, _), st) ← fatRead fuel st name buf bufSize
      .ret (r, st)
  | .op o => o.run fuel st

/-! ## The tails of the table buffers -/

/-- From `st` to `st'` the volume is the same, and so are the bytes that `fat_list`,
`fat_read` and `fat_cd` keep behind the loaded part of the table. -/
structure TailsKept (st st' : Driver) : Prop where
  mount : st'.mount = st.mount
  tails : ∀ o, st.mount.fatSecs * 512 ≤ o → ∀ owner ∈ [Owner.list, .read, .cd],
    st'.fatBuf owner o = st.fatBuf owner o

theorem TailsKept.refl (st : Driver) : TailsKept st st := ⟨rfl, fun _ _ _ _ => rfl⟩

theorem TailsKept.trans {st st' st'' : Driver} (h : TailsKept st st') (h' : TailsKept st' st'') :
    TailsKept st st'' := by
  refine ⟨h'.mount.trans h.mount, fun o ho owner howner => ?_⟩
  rw [h'.tails o (by rw [h.mount]; exact ho) owner howner, h.tails o ho owner howner]

/-- Keeping a buffer with the same tail, or a buffer of another function. -/
theorem TailsKept.keepBuf {st : Driver} {owner : Owner} {fatBuf : FatBuf}
    (h : owner ∉ [Owner.list, .read, .cd] ∨
      ∀ o, st.mount.fatSecs * 512 ≤ o → fatBuf o = st.fatBuf owner o) :
    TailsKept st (st.keepBuf owner fatBuf) := by
  refine ⟨rfl, fun o ho owner' howner' => ?_⟩
  by_cases heq : owner' = owner
  · subst heq
    have hself : (st.keepBuf owner' fatBuf).fatBuf owner' = fatBuf := Function.update_self ..
    rw [hself]
    exact h.resolve_left (fun hnot => hnot howner') o ho
  · have hother : (st.keepBuf owner fatBuf).fatBuf owner' = st.fatBuf owner' :=
      Function.update_of_ne heq ..
    rw [hother]

/-- `load_fat` leaves what lies behind the sectors it loads. -/
theorem loadFat_tail (m : Mount) (left s : ℕ) (fatBuf : FatBuf) :
    Always (fun r => ∀ o, 512 * (s + left) ≤ o → r.2 o = fatBuf o) (loadFat m left s fatBuf) := by
  induction left generalizing s fatBuf with
  | zero => exact fun _ _ => rfl
  | succ left ih =>
      intro answer
      cases answer with
      | none => exact fun _ _ => rfl
      | some sector =>
          refine (ih (s + 1) (loadSector fatBuf s sector)).mono fun r hr o ho => ?_
          rw [hr o (by omega), loadSector, if_neg (by omega)]

/-- The rule for the prologue: the body starts from a buffer with the same tail. -/
theorem withFat_always {α : Type} {P : α × Driver → Prop} {st : Driver} {owner : Owner}
    {failed : α} {body : FatBuf → FatProg (α × Driver)} (hst : P (failed, st))
    (hfailed : ∀ fatBuf, (∀ o, st.mount.fatSecs * 512 ≤ o → fatBuf o = st.fatBuf owner o) →
      P (failed, st.keepBuf owner fatBuf))
    (hbody : ∀ fatBuf, (∀ o, st.mount.fatSecs * 512 ≤ o → fatBuf o = st.fatBuf owner o) →
      Always P (body fatBuf)) : Always P (withFat st owner failed body) := by
  unfold withFat
  split_ifs with hmounted
  · refine (loadFat_tail st.mount st.mount.fatSecs 0 (st.fatBuf owner)).bind fun r htail => ?_
    have htail' : ∀ o, st.mount.fatSecs * 512 ≤ o → r.2 o = st.fatBuf owner o :=
      fun o ho => htail o (by omega)
    dsimp only
    split_ifs
    · exact hfailed r.2 htail'
    · exact hbody r.2 htail'
  · exact hst

section Calls

variable (fuel : ℕ) (st : Driver)

theorem fatList_tails (max : ℤ) :
    Always (fun r => TailsKept st r.2) (fatList fuel st max) := by
  refine withFat_always (P := fun r => TailsKept st r.2) (.refl st) (fun _ h => .keepBuf (Or.inr h))
    fun fatBuf h => ?_
  exact (always_trivial _).bind fun _ _ => .keepBuf (Or.inr h)

theorem fatRead_tails (name : CString) (buf : ℕ → UInt8) (bufSize : ℕ) :
    Always (fun r => TailsKept st r.2) (fatRead fuel st name buf bufSize) := by
  refine withFat_always (P := fun r => TailsKept st r.2) (.refl st) (fun _ h => .keepBuf (Or.inr h))
    fun fatBuf h => ?_
  have hkept : TailsKept st (st.keepBuf .read fatBuf) := .keepBuf (Or.inr h)
  refine (always_trivial _).bind fun found _ => ?_
  cases found with
  | none => exact hkept
  | some hit =>
      dsimp only
      split_ifs
      · exact hkept
      · refine (always_trivial _).bind fun result _ => ?_
        rcases result with ⟨bytesRead | _, buf⟩ <;> exact hkept

theorem removeEntry_tails {owner : Owner} (howner : owner ∉ [Owner.list, .read, .cd])
    (verdict : RawDirEntry → Verdict) :
    Always (fun r => TailsKept st r.2) (removeEntry owner verdict fuel st) := by
  have hkept (fatBuf : FatBuf) : TailsKept st (st.keepBuf owner fatBuf) := .keepBuf (Or.inl howner)
  refine withFat_always (P := fun r => TailsKept st r.2) (.refl st) (fun fatBuf _ => hkept fatBuf)
    fun fatBuf _ => ?_
  refine (always_trivial _).bind fun found _ => ?_
  cases found with
  | none => exact hkept fatBuf
  | some hit =>
      exact (always_trivial _).bind fun freed _ => (always_trivial _).bind fun _ _ =>
        (always_trivial _).bind fun _ _ => hkept freed

theorem fatRename_tails (oldName newName : CString) :
    Always (fun r => TailsKept st r.2) (fatRename fuel st oldName newName) := by
  have hkept (fatBuf : FatBuf) : TailsKept st (st.keepBuf .rename fatBuf) :=
    .keepBuf (Or.inl (by decide))
  unfold fatRename
  refine withFat_always (P := fun r => TailsKept st r.2) (.refl st) (fun fatBuf _ => hkept fatBuf)
    fun fatBuf _ => ?_
  refine (always_trivial _).bind fun found _ => ?_
  cases found with
  | none => exact hkept fatBuf
  | some hit => exact (always_trivial _).bind fun _ _ => hkept fatBuf

theorem storeFile_tails (name : CString) (data : ℕ → UInt8) (size : ℕ) :
    Always (fun r => TailsKept st r.2) (storeFile fuel st name data size) := by
  have hkept (fatBuf : FatBuf) : TailsKept st (st.keepBuf .write fatBuf) :=
    .keepBuf (Or.inl (by decide))
  refine withFat_always (P := fun r => TailsKept st r.2) (.refl st) (fun fatBuf _ => hkept fatBuf)
    fun fatBuf _ => ?_
  refine (always_trivial _).bind fun alloc _ => ?_
  dsimp only
  split_ifs
  · refine (always_trivial _).bind fun code _ => ?_
    split_ifs
    · exact hkept alloc.fatBuf
    · exact (always_trivial _).bind fun _ _ => hkept alloc.fatBuf
  · exact hkept alloc.fatBuf

theorem fatWrite_tails (name : CString) (data : ℕ → UInt8) (size : ℕ) :
    Always (fun r => TailsKept st r.2) (fatWrite fuel st name data size) := by
  have htaken : Always (fun r => TailsKept st r.2) (fatWriteTaken fuel st name data size) := by
    unfold fatWriteTaken
    split_ifs
    · refine (removeEntry_tails fuel st (by decide) (fileVerdict name)).bind fun deleted hdel => ?_
      exact (storeFile_tails fuel deleted.2 name data size).mono fun _ hstore => hdel.trans hstore
    · exact .refl st
  exact htaken.bind fun _ h => h

theorem fatMkdir_tails (name : CString) :
    Always (fun r => TailsKept st r.2) (fatMkdir fuel st name) := by
  have hkept (fatBuf : FatBuf) : TailsKept st (st.keepBuf .mkdir fatBuf) :=
    .keepBuf (Or.inl (by decide))
  have htaken : Always (fun r => TailsKept st r.2) (fatMkdirTaken fuel st name) := by
    refine withFat_always (P := fun r => TailsKept st r.2) (.refl st) (fun fatBuf _ => hkept fatBuf)
      fun fatBuf _ => ?_
    refine (always_trivial _).bind fun c _ => ?_
    dsimp only
    split_ifs
    · exact hkept fatBuf
    · refine (always_trivial _).bind fun code _ => ?_
      split_ifs
      · exact hkept _
      · refine (always_trivial _).bind fun code' _ => ?_
        split_ifs
        · exact hkept _
        · exact (always_trivial _).bind fun _ _ => hkept _
  exact htaken.bind fun _ h => h

theorem fatCd_tails (name : CString) :
    Always (fun r => TailsKept st r.2) (fatCd fuel st name) := by
  unfold fatCd
  split_ifs
  · exact ⟨rfl, fun _ _ _ _ => rfl⟩
  · refine withFat_always (P := fun r => TailsKept st r.2) (.refl st) (fun _ h => .keepBuf (Or.inr h))
      fun fatBuf h => ?_
    have hkept : TailsKept st (st.keepBuf .cd fatBuf) := .keepBuf (Or.inr h)
    refine (always_trivial _).bind fun found _ => ?_
    cases found with
    | none => exact hkept
    | some hit =>
        dsimp only
        split_ifs
        · exact ⟨hkept.mount, hkept.tails⟩
        · trivial

/-- **Every call keeps the tails**, whatever the device answers. -/
theorem Call.run_tails (call : Call) :
    Always (fun r => TailsKept st r.2) (call.run fuel st) := by
  cases call with
  | list max => exact (fatList_tails fuel st max).bind fun _ h => h
  | read name buf bufSize => exact (fatRead_tails fuel st name buf bufSize).bind fun _ h => h
  | op o =>
      cases o with
      | write name data size => exact fatWrite_tails fuel st name data size
      | delete name => exact removeEntry_tails fuel st (by decide) (fileVerdict name)
      | rename oldName newName => exact fatRename_tails fuel st oldName newName
      | mkdir name => exact fatMkdir_tails fuel st name
      | rmdir name => exact removeEntry_tails fuel st (by decide) (dirVerdict name)
      | cd name => exact fatCd_tails fuel st name

end Calls

theorem Driver.SameTails.call {st : Driver} (h : st.SameTails) (fuel : ℕ) (call : Call) :
    Always (fun r => r.2.SameTails) (call.run fuel st) := by
  refine (call.run_tails fuel st).mono fun r hkept o ho => ?_
  rw [hkept.mount] at ho
  have htails := hkept.tails o ho
  rw [htails .read (by decide), htails .list (by decide), htails .cd (by decide)]
  exact h o ho

end MasterOS.Fat
