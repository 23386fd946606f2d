/-
# The driver serves a store of files

Every call of the driver is a request to the store its volume stands for, and the code it
returns is a reply the store may give. So whole runs of the driver, seen by their requests
and replies, are runs of the store, and what `fat_read` delivers is the content of the
store.
-/

import MasterOS.Fat.Atomicity
import MasterOS.Fat.Refines

namespace MasterOS.Fat

open MasterOS.Device MasterOS.Device.Prog MasterOS.Math

/-! ## Writes that find a place -/

/-- A file of that many bytes has a place under a name: the clusters are there once an old
file of the name is gone, and so is a slot. -/
def HasPlace (s : System) (name : CString) (size : ℕ) : Prop :=
  Fits s.driver.mount s.disk s.driver.currentDirCluster name (clustersFor s.driver.mount size) ∧
    ((∃ loc, Named s.driver.mount s.disk s.driver.currentDirCluster freeVerdict loc) ∨
      ∃ loc, Named s.driver.mount s.disk s.driver.currentDirCluster (fileVerdict name) loc)

/-- A write that finds a place is done. -/
theorem HasPlace.done {st st' : Driver} {d : Disk} (hready : Ready st d) {name : CString}
    {data : ℕ → UInt8} {size : ℕ} (hsize : size < 2 ^ 32) (hplace : HasPlace ⟨st, d⟩ name size)
    {fuel : ℕ} {r : ℤ} {writes : List (ℕ × Sector)}
    (h : (fatWrite fuel st name data size).Returns d (r, st') writes) : r = 0 := by
  have hs := hready.sound
  obtain ⟨code, fatBuf, taken, first, second, hdelete, hstore, -, hs₁, hreach₁⟩ :=
    fatWrite_split hs hready.cwd h
  have hroom := hplace.1.after_delete hs hready.cwd hdelete
  obtain ⟨l, fatBuf', -, -, -, -, ⟨hnone, -⟩ | ⟨loc, -, hr, -⟩⟩ :=
    storeFile_outcome_of_room hs₁ hreach₁ hsize hroom hstore
  · -- the delete leaves a slot
    obtain ⟨-, ⟨hno, -, rfl⟩ | ⟨loc, n, l', -, hlive, howns, -, rfl⟩⟩ :=
      removeEntry_outcome hs hready.cwd (fun _ hnamed => hnamed.file.1) hdelete
    · rcases hplace.2 with ⟨loc, hfree⟩ | ⟨loc, hfile⟩
      · exact absurd hfree (hnone loc)
      · exact absurd hfile (hno loc)
    · obtain ⟨loc', hfree⟩ := named_free_of_removed hs hready.cwd hlive howns
        (removed_of_removeWrites (hs.walks hready.cwd) hlive.1 howns (st.fatBuf .delete))
      exact absurd hfree (hnone loc')
  · exact hr

/-! ## Runs of the driver -/

/-- What a call asks of the store. -/
def Op.request : Op → Request (List UInt8) UInt8
  | .write name data size => .write name.key (bytesOf data size)
  | .delete name => .delete name.key
  | .rename oldName newName => .rename oldName.key newName.key
  | .mkdir name => .mkdir name.key
  | .rmdir name => .rmdir name.key
  | .cd name => if name.chars = [0x2E, 0x2E] then .top else .cd name.key

/-- What a code replies. -/
def codeReply (r : ℤ) : Reply UInt8 := if r = 0 then .done else .failed

/-- The name a call stores, if it stores one, can be stored whole. -/
def Op.StoresPlain : Op → Prop
  | .write name _ _ | .rename _ name | .mkdir name => Plain name
  | _ => True

/-- A regular call that stores a new, plain name, or a read, with the request it is to the
store and the reply that the caller sees. -/
inductive Served : System → Request (List UInt8) UInt8 × Reply UInt8 → System → Prop
  | call {s : System} (op : Op) {fuel : ℕ} {r : ℤ} {st : Driver} {writes : List (ℕ × Sector)} :
      op.Regular s → op.NewName s → op.StoresPlain →
      (op.run fuel s.driver).Returns s.disk (r, st) writes →
      Served s (op.request, codeReply r) ⟨st, applyWrites writes s.disk⟩
  | read {s : System} (name : CString) {buf out : ℕ → UInt8} {bufSize fuel : ℕ} {bytes : ℤ}
      {st : Driver} {writes : List (ℕ × Sector)} : bufSize < 2 ^ 31 →
      (fatRead fuel s.driver name buf bufSize).Returns s.disk ((bytes, out), st) writes →
      Served s (.read name.key bufSize, readReply bytes out) ⟨st, applyWrites writes s.disk⟩

/-- **The driver refines a store of files.** -/
theorem simulates_store : Simulates Served Store.Step Stands := by
  rintro ⟨st, d⟩ F label s' hF hstep
  cases hstep with
  | read name hbuf h =>
      obtain ⟨-, -, hF', ⟨content, hcontent, hreply⟩ | ⟨hnone, hreply⟩⟩ := hF.read hbuf h
      · rw [hreply]
        exact ⟨F, .delivered hcontent, hF'⟩
      · rw [hreply]
        exact ⟨F, .notDelivered hnone, hF'⟩
  | call op hregular hnew hplain h =>
      cases op with
      | write name data size =>
          rcases hF.write hplain hregular hnew h with ⟨hdir, rfl, hF'⟩ | ⟨rfl, hF'⟩
          · exact ⟨_, .written hdir, hF'⟩
          · exact ⟨_, .notWritten, hF'⟩
      | delete name =>
          obtain ⟨⟨hfile, rfl⟩ | ⟨hfile, rfl⟩, hF'⟩ := hF.delete h
          · rw [Store.dropFile_of_hasFile hfile] at hF'
            exact ⟨_, .deleted hfile, hF'⟩
          · rw [Store.dropFile_of_not_hasFile hfile] at hF'
            exact ⟨_, .notDeleted hfile, hF'⟩
      | rename oldName newName =>
          rcases hF.rename hplain hnew h with
            ⟨content, hcontent, hfree, rfl, hF'⟩ | ⟨hfile, rfl, hF'⟩
          · exact ⟨_, .renamed hcontent hfree, hF'⟩
          · exact ⟨_, .notRenamed hfile, hF'⟩
      | mkdir name =>
          rcases hF.mkdir hplain hregular hnew h with ⟨id, hnone, hid, rfl, hF'⟩ | ⟨rfl, hF'⟩
          · exact ⟨_, .made hnone hid, hF'⟩
          · exact ⟨_, .notMade, hF'⟩
      | rmdir name =>
          rcases hF.rmdir h with ⟨hdir, rfl, hF'⟩ | ⟨hdir, rfl, hF'⟩
          · exact ⟨_, .removed hdir, hF'⟩
          · exact ⟨_, .notRemoved hdir, hF'⟩
      | cd name =>
          by_cases hup : name.chars = [0x2E, 0x2E]
          · obtain ⟨rfl, hF'⟩ := hF.top hup h
            rw [Op.request, if_pos hup]
            exact ⟨_, .top, hF'⟩
          · rw [Op.request, if_neg hup]
            rcases hF.cd hup h with ⟨id, hid, rfl, hF'⟩ | ⟨hdir, rfl, hF'⟩
            · exact ⟨_, .entered hid, hF'⟩
            · exact ⟨_, .notEntered hdir, hF'⟩

/-- **Whole runs of the driver are runs of a store.** What callers ask and are told is what
the store may be asked and may tell, and the volume stands for the store afterwards. -/
theorem fat_refines_store {s s' : System} {F : Files} (hF : Stands s F)
    {labels : List (Request (List UInt8) UInt8 × Reply UInt8)} (h : Trace Served s labels s') :
    ∃ F', Trace Store.Step F labels F' ∧ Stands s' F' :=
  simulates_store.trace hF h

/-- The empty store. -/
def emptyStore : Files where
  root := 0
  cwd := 0
  tree _ _ := none

/-- A blank volume stands for the empty store. -/
theorem stands_blankSystem : Stands blankSystem emptyStore where
  ready := ready_blankSystem
  unique := uniqueNames_blankSystem
  root := rfl
  cwd := rfl
  shows :=
    ⟨fun dirc n loc _ hlive => absurd hlive (not_liveAt_blank _ dirc n loc),
      fun _ _ _ _ h => (by cases h)⟩

/-- A call that returns 0 is served. -/
theorem served_next {s : System} (op : Op) {fuel : ℕ} (hregular : op.Regular s)
    (hnew : op.NewName s) (hplain : op.StoresPlain)
    (hcode : ((op.run fuel s.driver).exec s.disk).1.map Prod.fst = .ok 0) :
    Served s (op.request, .done) (s.next fuel op) := by
  obtain ⟨st, hreturns⟩ := returns_of_exec hcode
  rw [System.next_of_returns hreturns]
  exact .call op hregular hnew hplain hreturns

/-- On a blank volume `A` is written and served. -/
theorem served_oneFile : Served blankSystem (.write nameA.key [7], .done) oneFile := by
  have hnew : (Op.write nameA (fun _ => 7) 1).NewName blankSystem :=
    fun _ _ n loc hlive => absurd hlive (not_liveAt_blank _ _ n loc)
  exact served_next (.write nameA _ 1) regular_write_blank hnew valid83_nameA.fits
    (by decide +kernel)

/-- So is `B` beside it. -/
theorem served_twoFiles : Served oneFile (.write nameB.key [9], .done) twoFiles :=
  served_next (.write nameB _ 1) regular_write_oneFile newName_write_oneFile valid83_nameB.fits
    (by decide +kernel)

/-- A read of a volume that stands for a store is served. -/
theorem Stands.served_read {s : System} {F : Files} (hF : Stands s F) (name : CString)
    {bufSize : ℕ} (hbuf : bufSize < 2 ^ 31) :
    ∃ reply s', Served s (.read name.key bufSize, reply) s' := by
  obtain ⟨st, d⟩ := s
  have hs : Sound st.mount d := hF.ready.sound
  have hdir := hs.dirOk hF.ready.cwd
  have hfuel := Nat.lt_succ_self loopBound
  by_cases hfile : F.HasFile name.key
  · obtain ⟨content, hcontent⟩ := hfile
    obtain ⟨out, -, hread⟩ := fatRead_contains hs.valid.usable hdir (hF.contains hcontent) hbuf
      hfuel fun _ => 0
    exact ⟨_, _, .read name hbuf hread⟩
  · exact ⟨_, _, .read name hbuf (fatRead_not_found hs.valid.usable hdir.finite hfuel (fun _ => 0)
      bufSize fun n loc htake => hfile (hF.hasFile_iff.mpr ⟨loc, n, htake⟩))⟩

/-- On a blank volume `A` is written and read back. -/
theorem fat_refines_store_blank : ∃ s' F', Trace Served blankSystem
      [(.write nameA.key [7], .done), (.read nameA.key 1, .content [7])] s' ∧
    Trace Store.Step emptyStore
      [(.write nameA.key [7], .done), (.read nameA.key 1, .content [7])] F' ∧ Stands s' F' := by
  have hwritten := served_oneFile
  obtain ⟨F₁, hstep₁, hF₁⟩ := simulates_store _ _ _ _ stands_blankSystem hwritten
  obtain ⟨reply, s', hread⟩ := hF₁.served_read nameA (show 1 < 2 ^ 31 by decide)
  obtain ⟨F', hstep', -⟩ := simulates_store _ _ _ _ hF₁ hread
  have hreply : reply = .content [7] := by
    cases hstep₁
    cases hstep' with
    | delivered hhere =>
        rw [Store.here, Store.set_tree, if_pos ⟨rfl, rfl⟩] at hhere
        obtain rfl := Node.file.inj (Option.some.inj hhere)
        rfl
    | notDelivered hnone =>
        refine absurd ⟨[7], ?_⟩ hnone
        rw [Store.here, Store.set_tree, if_pos ⟨rfl, rfl⟩]
  subst hreply
  have htrace := Trace.cons hwritten (Trace.cons hread (.nil s'))
  obtain ⟨F', hstore, hF'⟩ := fat_refines_store stands_blankSystem htrace
  exact ⟨s', F', htrace, hstore, hF'⟩

/-- **A file stays what was written**, whatever is done to other names, in whatever
directories, as long as no directory is removed. -/
theorem written_file_stays {s s₁ s₂ s₃ : System} {F : Files} (hF : Stands s F)
    {name : List UInt8} {content : List UInt8}
    (hwritten : Served s (.write name content, .done) s₁)
    {labels : List (Request (List UInt8) UInt8 × Reply UInt8)}
    (htrace : Trace Served s₁ labels s₂)
    (hspares : ∀ label ∈ labels, Store.Spares name label.1)
    (hback : s₂.driver.currentDirCluster = s.driver.currentDirCluster) {limit : ℕ}
    {reply : Reply UInt8} (hread : Served s₂ (.read name limit, reply) s₃) :
    reply = .content (content.take limit) := by
  obtain ⟨F₁, hstep₁, hF₁⟩ := simulates_store _ _ _ _ hF hwritten
  obtain ⟨F₂, hsteps, hF₂⟩ := simulates_store.trace hF₁ htrace
  obtain ⟨F₃, hstep₃, -⟩ := simulates_store _ _ _ _ hF₂ hread
  have hhome : F₂.cwd = F.cwd := (hF₂.cwd.trans hback).trans hF.cwd.symm
  have hreach : F₁.Reach F.cwd := by
    have hcwd : F.Reach F.cwd := hF.cwd ▸ hF.reach_iff.mpr hF.ready.cwd
    exact hstep₁.reach trivial hcwd
  have hfile : F₁.tree F.cwd name = some (.file content) := by
    cases hstep₁ with
    | written hnot => rw [Store.set_tree, if_pos ⟨rfl, rfl⟩]
  have hstays : F₂.here name = some (.file content) := by
    rw [Store.here, hhome]
    exact (Store.file_stays hsteps hspares ⟨hreach, hfile⟩).2
  cases hstep₃ with
  | delivered hhere =>
      obtain rfl := Node.file.inj (Option.some.inj (hhere.symm.trans hstays))
      rfl
  | notDelivered hnone => exact absurd ⟨content, hstays⟩ hnone

/-- `A` is written to a blank volume and read after `B` was written and renamed to `C`, and a
change to the root. -/
theorem written_file_stays_blank : ∃ s₁ s₂ s₃ reply,
    Served blankSystem (.write nameA.key [7], .done) s₁ ∧
    Trace Served s₁ [(.write nameB.key [9], .done), (.rename nameB.key nameC.key, .done),
      (.top, .done)] s₂ ∧
    Served s₂ (.read nameA.key 1, reply) s₃ ∧ reply = .content [7] := by
  have hrenamed : Served twoFiles (.rename nameB.key nameC.key, .done)
      (twoFiles.next 4 (.rename nameB nameC)) :=
    served_next (.rename nameB nameC) trivial (newName_rename_twoFiles nameB)
      valid83_nameC.fits (by decide +kernel)
  generalize twoFiles.next 4 (.rename nameB nameC) = renamed at hrenamed
  have hbefore := Trace.cons served_oneFile (Trace.cons served_twoFiles (Trace.single hrenamed))
  obtain ⟨F, -, hF⟩ := simulates_store.trace stands_blankSystem hbefore
  have hdots : dotDot.chars = [0x2E, 0x2E] := rfl
  have hrequest : (Op.cd dotDot).request = .top := by rw [Op.request, if_pos hdots]
  have hup := fatCd_up hF.ready.sound.valid.initialized hdots 1 renamed.disk
  have htop : Served renamed (.top, .done)
      ⟨{ renamed.driver with currentDirCluster := 0, currentPath := [0x2F] }, renamed.disk⟩ := by
    rw [← hrequest]
    exact .call (.cd dotDot) trivial trivial trivial hup
  obtain ⟨F', -, hF'⟩ := simulates_store _ _ _ _ hF htop
  obtain ⟨reply, s₃, hread⟩ := hF'.served_read nameA (show 1 < 2 ^ 31 by decide)
  have htrace := Trace.cons served_twoFiles (Trace.cons hrenamed (Trace.single htop))
  refine ⟨oneFile, _, s₃, reply, served_oneFile, htrace, hread, ?_⟩
  refine written_file_stays stands_blankSystem served_oneFile htrace ?_ rfl hread
  have hA : nameB.key ≠ nameA.key ∧ nameC.key ≠ nameA.key := by decide +kernel
  simp only [List.mem_cons, List.not_mem_nil, or_false]
  rintro label (rfl | rfl | rfl)
  · exact hA.1
  · exact hA
  · trivial

end MasterOS.Fat
