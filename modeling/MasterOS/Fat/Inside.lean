/-
# The driver stays on its volume

The clusters that a volume may use are given by a set, such as those whose sectors it has. A
table that uses only them keeps every read of a call on these clusters and in front of the
data. So does every write, if the calls that take clusters find theirs in the set; and then
the table that a call leaves uses only them as well.
-/

import MasterOS.Device.Accesses
import MasterOS.Fat.Errors
import MasterOS.Fat.Reading
import MasterOS.Fat.Regular
import MasterOS.Fat.WriteBack

namespace MasterOS.Fat

open MasterOS.Device MasterOS.Device.Prog MasterOS.Math

/-- A sector in front of the data, or of a cluster in the set. -/
def InVolume (m : Mount) (ok : ℕ → Prop) (lba : ℕ) : Prop :=
  lba < m.dataStart ∨ ∃ c k, ok c ∧ k < m.spc ∧ lba = m.clusterLba c k

/-- Clusters outside of the set are marked free. -/
def Confined (m : Mount) (ok : ℕ → Prop) (next : ℕ → ℕ) : Prop :=
  ∀ c, DataCluster m c → next c ≠ 0 → ok c

section Chains

variable {m : Mount} {ok : ℕ → Prop} {next next' : ℕ → ℕ}

theorem Confined.congr (h : Confined m ok next)
    (hsame : ∀ c, DataCluster m c → next' c = next c) : Confined m ok next' :=
  fun c hdata hne => h c hdata (by rwa [← hsame c hdata])

theorem Confined.of_chain (h : Confined m ok next) {c x : ℕ} {l : List ℕ}
    (hl : Chain next (DataCluster m) EndMark c l) (hx : x ∈ l) : ok x := by
  refine h x (hl.ok_of_mem hx) ?_
  rcases hl.next_of_mem hx with hdata | hend
  · have := hdata.1
    omega
  · unfold EndMark at hend
    omega

/-- The sectors of a directory are the volume's. -/
theorem Confined.inVolume (h : Confined m ok next) (hu : m.Usable) {dirc s lba : ℕ}
    (hdir : DirOk m next dirc) (hlba : dirLba m next dirc s = some lba) :
    InVolume m ok lba := by
  rcases hdir with rfl | ⟨l, hl⟩
  · have hdata := hu.dataStart_eq
    rw [dirLba, if_pos rfl] at hlba
    split_ifs at hlba
    obtain rfl := Option.some.inj hlba
    exact Or.inl (by omega)
  · obtain ⟨c, k, hc, hk, rfl, -, -⟩ := mem_of_dirLba hu hl hlba
    exact Or.inr ⟨c, k, h.of_chain hl hc, hk, rfl⟩

end Chains

/-! ## Reads -/

section Reads

variable {m : Mount} {ok : ℕ → Prop} (hu : m.Usable) {fatBuf : FatBuf}
  (hconf : Confined m ok (fatNextCluster fatBuf))
include hu hconf

theorem readDirSector_within {dirc : ℕ} (hdir : DirOk m (fatNextCluster fatBuf) dirc) (s : ℕ) :
    Within (InVolume m ok) (readDirSector m dirc fatBuf s) := by
  have hin (lba : ℕ) (hlba : dirLba m (fatNextCluster fatBuf) dirc s = some lba) :
      InVolume m ok lba ∧ lba < 2 ^ 28 :=
    ⟨hconf.inVolume hu hdir hlba, (dirLba_bounds hu hdir hlba).2⟩
  have hlt := hdir.lt
  have hdir' := hdir
  rcases hdir' with rfl | ⟨l, hl⟩
  · unfold readDirSector
    rw [if_pos rfl]
    refine within_ite (fun _ => trivial) fun hs => ⟨?_, fun answer => ?_⟩
    · obtain ⟨hvolume, hbound⟩ := hin (m.rootStart + s) (by
        rw [dirLba, if_pos rfl, if_pos (by omega)])
      rwa [mod32_of_lt hbound, Nat.mod_eq_of_lt hbound]
    · cases answer <;> trivial
  · have hne : dirc ≠ 0 := by
      have := hl.ok_head.1
      omega
    have hspc := hu.spc_pos
    unfold readDirSector
    rw [if_neg hne, if_neg (by omega), Nat.mod_eq_of_lt (by omega), walkDir_eq hl, ret_bind]
    rw [dirLba, if_neg hne] at hin
    cases hc : dirCluster (fatNextCluster fatBuf) dirc (s / m.spc) with
    | none => trivial
    | some c =>
        rw [hc] at hin
        obtain ⟨hvolume, hbound⟩ := hin _ rfl
        refine ⟨?_, fun answer => ?_⟩
        · rwa [Nat.mod_eq_of_lt hbound]
        · cases answer <;> trivial

theorem findSlot_within {dirc : ℕ} (hdir : DirOk m (fatNextCluster fatBuf) dirc)
    (verdict : RawDirEntry → Verdict) (fuel s : ℕ) :
    Within (InVolume m ok) (findSlot m dirc fatBuf verdict fuel s) := by
  induction fuel generalizing s with
  | zero => trivial
  | succ fuel ih =>
      refine (readDirSector_within hu hconf hdir s).bind fun r => ?_
      cases r with
      | error code => trivial
      | ok sector =>
          dsimp only
          cases scanSlots verdict sector (List.range 16) with
          | nothing => exact ih _
          | ended | hit i => trivial

theorem listSectors_within {dirc : ℕ} (hdir : DirOk m (fatNextCluster fatBuf) dirc) (max : ℤ)
    (fuel s : ℕ) (entries : List Fat12Entry) :
    Within (InVolume m ok) (listSectors m dirc fatBuf max fuel s entries) := by
  induction fuel generalizing s entries with
  | zero => trivial
  | succ fuel ih =>
      refine within_ite (fun _ => ?_) fun _ => trivial
      refine (readDirSector_within hu hconf hdir s).bind fun r => ?_
      cases r with
      | error code => trivial
      | ok sector =>
          dsimp only
          rcases listSlots max sector (List.range 16) entries with ⟨_ | _, entries'⟩
          · exact ih _ entries'
          · trivial

omit hconf in
theorem readSectors_within {c : ℕ} (hdata : DataCluster m c) (hc : ok c)
    (fileSize bufSize left s bytesRead : ℕ) (buf : ℕ → UInt8) (h : s + left ≤ m.spc) :
    Within (InVolume m ok)
      (readSectors (m.clusterLba c 0) fileSize bufSize left s bytesRead buf) := by
  induction left generalizing s bytesRead buf with
  | zero => trivial
  | succ left ih =>
      have hs : s < m.spc := by omega
      have hbound := hu.clusterLba_lt hdata.1 (lt_trans hdata.lt (by decide)) hs
      refine ⟨?_, fun answer => ?_⟩
      · rw [m.clusterLba_add, Nat.mod_eq_of_lt hbound]
        exact Or.inr ⟨c, s, hc, hs, rfl⟩
      · cases answer with
        | none => trivial
        | some sector => exact within_ite (fun _ => trivial) fun _ => ih _ _ _ (by omega)

/-- Reading a file goes along its chain. -/
theorem readChain_within {c : ℕ} {l : List ℕ}
    (hl : Chain (fatNextCluster fatBuf) (DataCluster m) EndMark c l)
    (fileSize bufSize fuel bytesRead : ℕ) (buf : ℕ → UInt8) :
    Within (InVolume m ok) (readChain m fatBuf fileSize bufSize fuel c bytesRead buf) := by
  induction fuel generalizing c l bytesRead buf with
  | zero => trivial
  | succ fuel ih =>
      have hdata := hl.ok_head
      have hlt := hdata.lt
      rw [readChain, if_pos ⟨hdata.1, hdata.2.1⟩]
      refine (readSectors_within hu hdata (hconf.of_chain hl hl.head_mem) fileSize bufSize
        m.spc 0 bytesRead buf (Nat.zero_add _).le).bind fun step => ?_
      cases step with
      | failed buf => trivial
      | finished bytesRead buf => trivial
      | more bytesRead buf =>
          dsimp only
          rw [loadEntry_of_lt (by omega), ret_bind]
          refine within_ite (fun _ => trivial) fun _ => ?_
          cases hl with
          | last _ hend =>
              unfold EndMark at hend
              cases fuel with
              | zero => trivial
              | succ fuel =>
                  rw [readChain, if_neg (by omega)]
                  trivial
          | link _ hrest => exact ih hrest _ _

end Reads

/-! ## What only writes -/

section Writes

variable (m : Mount) (fatBuf : FatBuf)

theorem loadEntry_writesWithin (c : ℕ) :
    WritesWithin (fun _ => True) (loadEntry fatBuf c) := by
  unfold loadEntry
  exact writesWithin_ite (fun _ => trivial) fun _ => trivial

theorem writeDirSector_writesWithin (dirc s : ℕ) (sector : Sector) :
    WritesWithin (fun _ => True) (writeDirSector m dirc fatBuf s sector) := by
  have hback (n : ℕ) : ∀ c, WritesWithin (fun _ => True) (walkBack fatBuf n c) := by
    induction n with
    | zero => exact fun _ => trivial
    | succ n ih => exact fun c => (loadEntry_writesWithin fatBuf c).bind ih
  unfold writeDirSector
  refine writesWithin_ite (fun _ => ataWrite_writes _ _) fun _ => ?_
  refine writesWithin_ite (fun _ => trivial) fun _ => ?_
  exact (hback _ _).bind fun _ => ataWrite_writes _ _

theorem freeChain_writesWithin (fuel c : ℕ) :
    WritesWithin (fun _ => True) (freeChain fuel fatBuf c) := by
  induction fuel generalizing fatBuf c with
  | zero => trivial
  | succ fuel ih =>
      rw [freeChain]
      refine writesWithin_ite (fun _ => ?_) fun _ => trivial
      exact (loadEntry_writesWithin fatBuf c).bind fun _ => ih _ _

theorem writeFat_writes : WritesWithin (fun _ => True) (writeFat m fatBuf) := by
  have hcopy (start left : ℕ) : ∀ s,
      WritesWithin (fun _ => True) (writeFatCopy fatBuf start left s) := by
    induction left with
    | zero => exact fun _ => trivial
    | succ left ih =>
        exact fun s => (ataWrite_writes _ _).bind fun r =>
          writesWithin_ite (fun _ => trivial) fun _ => ih _
  have hcopies (left : ℕ) : ∀ f,
      WritesWithin (fun _ => True) (writeFatCopies m fatBuf left f) := by
    induction left with
    | zero => exact fun _ => trivial
    | succ left ih =>
        exact fun f => (hcopy _ _ _).bind fun r =>
          writesWithin_ite (fun _ => trivial) fun _ => ih _
  exact hcopies _ _

end Writes

/-! ## The reads of a call -/

section Calls

variable {st : Driver} {d : Disk} {ok : ℕ → Prop}

/-- The prologue reads the first copy of the table. -/
theorem withFat_reads {α : Type} (hv : st.mount.Valid) {owner : Owner} {failed : α}
    {body : FatBuf → FatProg (α × Driver)}
    (hbody : ReadsStay (InVolume st.mount ok) (body (loaded st.mount d (st.fatBuf owner))) d) :
    ReadsStay (InVolume st.mount ok) (withFat st owner failed body) d := by
  have hdata := hv.dataStart_eq
  have hload : Within (InVolume st.mount ok)
      (loadFat st.mount st.mount.fatSecs 0 (st.fatBuf owner)) :=
    (loadFat_within hv.usable hv.fatCount_pos _).mono fun lba hlba => Or.inl (by omega)
  unfold withFat
  rw [if_pos hv.initialized]
  refine (hload.readsStay d).bind fun value writes h => ?_
  obtain ⟨rfl, rfl⟩ := h.unique (loadFat_returns hv.usable d (st.fatBuf owner))
  exact hbody

variable (hready : Ready st d) (hconf : Confined st.mount ok (fatAt st.mount d))
include hready hconf

/-- The table that a call has loaded. -/
theorem loaded_confined (owner : Owner) :
    DirOk st.mount (fatNextCluster (loaded st.mount d (st.fatBuf owner)))
        st.currentDirCluster ∧
      Confined st.mount ok (fatNextCluster (loaded st.mount d (st.fatBuf owner))) :=
  ⟨((hready.sound.walks hready.cwd).dirKept_loaded _).dirOk,
    hconf.congr fun _ hdata => fatNextCluster_loaded hdata.2.2⟩

theorem removeEntry_reads (owner : Owner) (verdict : RawDirEntry → Verdict) (fuel : ℕ) :
    ReadsStay (InVolume st.mount ok) (removeEntry owner verdict fuel st) d := by
  have hv := hready.sound.valid
  obtain ⟨hdir, hconf'⟩ := loaded_confined hready hconf owner
  refine withFat_reads hv ?_
  refine ((findSlot_within hv.usable hconf' hdir verdict fuel 0).readsStay d).bind
    fun found writes _ => ?_
  cases found with
  | none => trivial
  | some hit =>
      refine WritesWithin.readsStay (Q := fun _ => True) ?_ _
      refine (freeChain_writesWithin _ fuel _).bind fun b => ?_
      exact (writeFat_writes _ b).bind fun _ =>
        (writeDirSector_writesWithin _ b _ _ _).bind fun _ => trivial

theorem fatRename_reads (oldName newName : CString) (fuel : ℕ) :
    ReadsStay (InVolume st.mount ok) (fatRename fuel st oldName newName) d := by
  have hv := hready.sound.valid
  obtain ⟨hdir, hconf'⟩ := loaded_confined hready hconf .rename
  unfold fatRename
  refine withFat_reads hv ?_
  refine ((findSlot_within hv.usable hconf' hdir _ fuel 0).readsStay d).bind
    fun found writes _ => ?_
  cases found with
  | none => trivial
  | some hit =>
      refine WritesWithin.readsStay (Q := fun _ => True) ?_ _
      exact (writeDirSector_writesWithin _ _ _ _ _).bind fun _ => trivial

theorem fatCd_reads (name : CString) (fuel : ℕ) :
    ReadsStay (InVolume st.mount ok) (fatCd fuel st name) d := by
  have hv := hready.sound.valid
  obtain ⟨hdir, hconf'⟩ := loaded_confined hready hconf .cd
  refine readsStay_ite (fun _ => trivial) fun _ => withFat_reads hv ?_
  refine ((findSlot_within hv.usable hconf' hdir _ fuel 0).readsStay d).bind
    fun found writes _ => ?_
  cases found with
  | none => trivial
  | some hit => exact readsStay_ite (fun _ => trivial) fun _ => trivial

/-- The record is placed by a table that has the new chain. -/
theorem placeEntry_reads {n : ℕ} {owner : Owner} {a : Chained}
    (halloc : tableAlloc st.mount d (st.fatBuf owner) n = .ok a)
    (hclusters : ∀ c ∈ a.clusters, ok c) (fuel : ℕ) (e : RawDirEntry) (disk : Disk) :
    ReadsStay (InVolume st.mount ok) (placeEntry st.mount st.currentDirCluster a.fatBuf fuel e)
      disk := by
  have hwalk := hready.sound.walks hready.cwd
  have hconf' : Confined st.mount ok (fatNextCluster a.fatBuf) := by
    intro c hdata hne
    by_cases hc : c ∈ a.clusters
    · exact hclusters c hc
    · rw [table_of_tableAlloc halloc hdata.2.2 hc] at hne
      exact hconf c hdata hne
  refine ((findSlot_within hwalk.valid.usable hconf' (hwalk.dirKept_tableAlloc halloc).dirOk
    freeVerdict fuel 0).readsStay disk).bind fun found writes _ => ?_
  cases found with
  | none => trivial
  | some hit => exact (writeDirSector_writesWithin _ _ _ _ _).readsStay _

theorem storeFile_reads (name : CString) (data : ℕ → UInt8) {size : ℕ} (hsize : size < 2 ^ 32)
    (hclusters : ∀ a, tableAlloc st.mount d (st.fatBuf .write) (clustersFor st.mount size) = .ok a →
      ∀ c ∈ a.clusters, ok c) (fuel : ℕ) :
    ReadsStay (InVolume st.mount ok) (storeFile fuel st name data size) d := by
  have hv := hready.sound.valid
  have hwalk := hready.sound.walks hready.cwd
  refine withFat_reads hv ?_
  refine ((writeClusters_writesWithin _ data size fuel size 0 0 _ []).readsStay d).bind
    fun alloc writes halloc => ?_
  obtain ⟨big, hbig, hreturns⟩ := returns_of_more_fuel
    (fun _ _ hle => writeClusters_extends st.mount st.mount.totalClusters data size size 0 0
      (loaded st.mount d (st.fatBuf .write)) [] hle) halloc
  have hbound := clustersFor_lt_loopBound hv hsize
  have hloop := writeClusters_start hv data (loaded st.mount d (st.fatBuf .write))
    (show clustersFor st.mount size < big by omega) d
  cases ha : tableAlloc st.mount d (st.fatBuf .write) (clustersFor st.mount size) with
  | error fault =>
      unfold tableAlloc at ha
      rw [ha] at hloop
      obtain ⟨_, hstop⟩ := hloop
      rw [Returns, hstop] at hreturns
      injection hreturns with hreturns
      injection hreturns
  | ok a =>
      have hplace := placeEntry_reads hready hconf ha (hclusters a ha) fuel
      unfold tableAlloc at ha
      rw [ha] at hloop
      obtain ⟨rfl, -⟩ := hreturns.unique hloop
      refine readsStay_ite (fun _ => ?_) fun _ => trivial
      refine ((writeFat_writes st.mount a.fatBuf).readsStay _).bind fun r _ _ => ?_
      refine readsStay_ite (fun _ => trivial) fun _ => ?_
      exact (hplace _ _).bind fun _ _ _ => trivial

theorem fatMkdir_reads (name : CString)
    (hclusters : ∀ a, tableAlloc st.mount d (st.fatBuf .mkdir) 1 = .ok a →
      ∀ c ∈ a.clusters, ok c) (fuel : ℕ) :
    ReadsStay (InVolume st.mount ok) (fatMkdir fuel st name) d := by
  have hv := hready.sound.valid
  refine ReadsStay.bind ?_ fun _ _ _ => trivial
  refine withFat_reads hv ?_
  rcases allocChain_succ st.mount.totalClusters 0 0 (loaded st.mount d (st.fatBuf .mkdir)) with
    ⟨hfind, -⟩ | ⟨hfind, -⟩ | ⟨c, hfind, -, hne, halloc⟩
  · rw [hfind]
    trivial
  · rw [hfind]
    trivial
  · have hplace := placeEntry_reads hready hconf halloc (hclusters _ halloc) fuel
    rw [hfind, ret_bind, if_neg hne]
    refine ((writeFat_writes st.mount _).readsStay _).bind fun r _ _ => ?_
    refine readsStay_ite (fun _ => trivial) fun _ => ?_
    refine ((ataWrite_writes _ _).readsStay _).bind fun r _ _ => ?_
    refine readsStay_ite (fun _ => trivial) fun _ => ?_
    exact (hplace _ _).bind fun _ _ _ => trivial

theorem fatRead_reads (name : CString) (buf : ℕ → UInt8) (bufSize fuel : ℕ) :
    ReadsStay (InVolume st.mount ok) (fatRead fuel st name buf bufSize) d := by
  have hs := hready.sound
  have hv := hs.valid
  obtain ⟨hdir, hconf'⟩ := loaded_confined hready hconf .read
  unfold fatRead
  refine withFat_reads hv ?_
  refine ((findSlot_within hv.usable hconf' hdir _ fuel 0).readsStay d).bind
    fun found writes h => ?_
  cases found with
  | none => trivial
  | some hit =>
      obtain ⟨rfl, n, loc, htake, hhit⟩ := findSlot_result (hdir.readable hv.usable) _ d fuel 0
        (fun k hk => absurd hk (Nat.not_lt_zero _)) h
      have hslot : slotAt st.mount (fatNextCluster (loaded st.mount d (st.fatBuf .read)))
          st.currentDirCluster = slotAt st.mount (fatAt st.mount d) st.currentDirCluster :=
        funext ((hs.walks hready.cwd).dirKept_loaded _).slotAt
      rw [hslot] at htake
      have hentry : hit.entry = entryAt d loc := by
        rw [hhit, htake.hit_entry.2]
      obtain ⟨⟨k, hlive⟩, -⟩ := Named.file ⟨n, htake⟩
      obtain ⟨l, howns⟩ := hs.owns loc (hlive.live hready.cwd)
      dsimp only
      rw [hentry]
      refine readsStay_ite (fun _ => trivial) fun hsome => ?_
      have hchain : Chain (fatNextCluster (loaded st.mount d (st.fatBuf .read)))
          (DataCluster st.mount) EndMark (entryAt d loc).firstCluster.toNat l := by
        rcases howns with ⟨-, hzero, -⟩ | hchain
        · omega
        · exact hchain.congr fun x hx => fatNextCluster_loaded (hchain.ok_of_mem hx).2.2
      refine ((readChain_within hv.usable hconf' hchain _ bufSize fuel 0 buf).readsStay d).bind
        fun result _ _ => ?_
      rcases result with ⟨_ | bytesRead, buf'⟩ <;> trivial

theorem fatList_reads (max : ℤ) (fuel : ℕ) :
    ReadsStay (InVolume st.mount ok) (fatList fuel st max) d := by
  have hv := hready.sound.valid
  obtain ⟨hdir, hconf'⟩ := loaded_confined hready hconf .list
  refine withFat_reads hv ?_
  exact ((listSectors_within hv.usable hconf' hdir max fuel 0 []).readsStay d).bind
    fun _ _ _ => trivial

end Calls

/-! ## The writes of a call -/

section Lists

variable {m : Mount} {d : Disk} {ok : ℕ → Prop} {C : List ℕ}

theorem BelowOrIn.inVolume {w : ℕ × Sector} (h : BelowOrIn m C w) (hu : m.Usable)
    (hC : ∀ c ∈ C, ok c) : InVolume m ok w.1 := by
  rcases h with hlow | ⟨c, hc, k, hk, heq⟩
  · have hdata := hu.dataStart_eq
    exact Or.inl (by omega)
  · exact Or.inr ⟨c, k, hC c hc, hk, heq⟩

theorem Confined.slot (h : Confined m ok (fatAt m d)) {dirc : ℕ} (hwalk : Walks m d dirc)
    {n : ℕ} {loc : Loc} (hloc : slotAt m (fatAt m d) dirc n = some loc) : InVolume m ok loc.1 :=
  h.inVolume hwalk.valid.usable hwalk.dirOk (slotAt_eq_some_iff.mp hloc).1

theorem Confined.owns (h : Confined m ok (fatAt m d)) {e : RawDirEntry} {l : List ℕ}
    (howns : Owns m d e l) : ∀ c ∈ l, ok c := by
  intro c hc
  rcases howns with ⟨-, -, rfl⟩ | hchain
  · cases hc
  · exact h.of_chain hchain hc

/-- An edit that takes clusters of the set keeps the table to the set. -/
theorem Confined.edit (h : Confined m ok (fatAt m d)) {d' : Disk} {S : Loc → Prop}
    (hedit : Edit m d d' S C) (hC : ∀ c ∈ C, ok c) : Confined m ok (fatAt m d') := by
  intro c hdata hne
  by_cases hc : c ∈ C
  · exact hC c hc
  · rw [hedit.table c hdata.2.2 hc] at hne
    exact h c hdata hne

end Lists

/-- The clusters that a call takes are in the set. -/
def Op.TakesIn (ok : ℕ → Prop) [DecidablePred ok] (s : System) : Op → Prop
  | .write name _ size =>
      ∃ l, Replaced s.driver.mount s.disk s.driver.currentDirCluster name l ∧
        Supplies s.driver.mount.totalClusters ok
          (freeList (loaded s.driver.mount s.disk (s.driver.fatBuf .write)) l)
          (clustersFor s.driver.mount size)
  | .mkdir _ =>
      Supplies s.driver.mount.totalClusters ok
        (loaded s.driver.mount s.disk (s.driver.fatBuf .mkdir)) 1
  | _ => True

section Outcomes

variable {st st' : Driver} {d : Disk} {ok : ℕ → Prop} (hready : Ready st d)
  (hconf : Confined st.mount ok (fatAt st.mount d)) {fuel : ℕ} {r : ℤ}
  {writes : List (ℕ × Sector)}
include hready hconf

theorem removeEntry_writes {owner : Owner} {verdict : RawDirEntry → Verdict}
    (hlive : ∀ loc, Named st.mount d st.currentDirCluster verdict loc →
      ∃ n, LiveAt st.mount d st.currentDirCluster n loc)
    (h : (removeEntry owner verdict fuel st).Returns d (r, st') writes) :
    (∀ w ∈ writes, InVolume st.mount ok w.1) ∧
      Confined st.mount ok (fatAt st.mount (applyWrites writes d)) := by
  have hwalk := hready.sound.walks hready.cwd
  obtain ⟨-, ⟨-, -, rfl⟩ | ⟨loc, n, l, -, hliveAt, howns, -, rfl⟩⟩ :=
    removeEntry_outcome hready.sound hready.cwd hlive h
  · exact ⟨fun w hw => absurd hw List.not_mem_nil, hconf⟩
  · refine ⟨fun w hw => ?_, hconf.edit
      (removed_of_removeWrites hwalk hliveAt.1 howns (st.fatBuf owner)).edit (hconf.owns howns)⟩
    rcases List.mem_append.mp hw with hw | hw
    · have hbelow : BelowOrIn st.mount [] w := fatWrites_belowOrIn hwalk.valid hw
      exact hbelow.inVolume hwalk.valid.usable fun c hc => absurd hc List.not_mem_nil
    · rw [List.mem_singleton.mp hw]
      exact hconf.slot hwalk hliveAt.1

theorem fatRename_writes {oldName newName : CString}
    (h : (fatRename fuel st oldName newName).Returns d (r, st') writes) :
    (∀ w ∈ writes, InVolume st.mount ok w.1) ∧
      Confined st.mount ok (fatAt st.mount (applyWrites writes d)) := by
  have hwalk := hready.sound.walks hready.cwd
  obtain ⟨-, ⟨-, -, rfl⟩ | ⟨loc, ⟨n, htake⟩, -, rfl⟩⟩ := fatRename_outcome hwalk h
  · exact ⟨fun w hw => absurd hw List.not_mem_nil, hconf⟩
  · obtain ⟨hedit, -, -⟩ :=
      slotWrite_effect hwalk htake.1 (renamedEntry (entryAt d loc) newName)
    refine ⟨fun w hw => ?_, hconf.edit hedit fun c hc => absurd hc List.not_mem_nil⟩
    rw [List.mem_singleton.mp hw]
    exact hconf.slot hwalk htake.1

theorem storeFile_writes {name : CString} {data : ℕ → UInt8} {size : ℕ} (hsize : size < 2 ^ 32)
    (hclusters : ∀ a, tableAlloc st.mount d (st.fatBuf .write) (clustersFor st.mount size) = .ok a →
      ∀ c ∈ a.clusters, ok c) {taken : List ℕ}
    (h : (storeFile fuel st name data size).Returns d ((r, taken), st') writes) :
    (∀ w ∈ writes, InVolume st.mount ok w.1) ∧
      Confined st.mount ok (fatAt st.mount (applyWrites writes d)) := by
  have hwalk := hready.sound.walks hready.cwd
  have hv := hwalk.valid
  obtain ⟨a, halloc, -, -, hcases⟩ := storeFile_outcome hwalk hsize h
  have hC := hclusters a halloc
  rcases hcases with ⟨-, -, rfl⟩ | ⟨-, -, -, rfl⟩ | ⟨loc, -, ⟨n, htake⟩, -, rfl⟩
  · exact ⟨fun w hw => (fileWrites_belowOrIn hw).inVolume hv.usable hC,
      hconf.edit (edit_of_gaveUp hready halloc).1 hC⟩
  · exact ⟨fun w hw => (storeWrites_belowOrIn hv data size a w hw).inVolume hv.usable hC,
      hconf.edit (edit_of_storeWrites hwalk halloc data size fun _ => False) hC⟩
  · refine ⟨fun w hw => ?_, hconf.edit
      (created_of_storeWrites hwalk halloc htake.1 data size _).edit hC⟩
    rcases List.mem_append.mp hw with hw | hw
    · exact (storeWrites_belowOrIn hv data size a w hw).inVolume hv.usable hC
    · rw [List.mem_singleton.mp hw]
      exact hconf.slot hwalk htake.1

theorem fatMkdir_writes {name : CString}
    (hclusters : ∀ a, tableAlloc st.mount d (st.fatBuf .mkdir) 1 = .ok a →
      ∀ c ∈ a.clusters, ok c)
    (h : (fatMkdir fuel st name).Returns d (r, st') writes) :
    (∀ w ∈ writes, InVolume st.mount ok w.1) ∧
      Confined st.mount ok (fatAt st.mount (applyWrites writes d)) := by
  have hwalk := hready.sound.walks hready.cwd
  have hv := hwalk.valid
  obtain ⟨taken, htaken⟩ := fatMkdir_returns_iff.mp h
  obtain ⟨a, halloc, -, ⟨-, -, -, rfl⟩ | ⟨c, -, hsingle, -, hcases⟩⟩ :=
    fatMkdirTaken_outcome hwalk htaken
  · exact ⟨fun w hw => absurd hw List.not_mem_nil, hconf⟩
  have hC := hclusters a halloc
  have hbelow (w : ℕ × Sector)
      (hw : w ∈ mkdirWrites st.mount st.currentDirCluster c a.fatBuf) :
      InVolume st.mount ok w.1 := by
    refine (mkdirWrites_belowOrIn hv st.currentDirCluster c a.fatBuf w hw).inVolume hv.usable ?_
    rwa [← hsingle]
  rcases hcases with ⟨-, -, rfl⟩ | ⟨loc, ⟨n, htake⟩, -, rfl⟩
  · exact ⟨hbelow, hconf.edit (edit_of_mkdirWrites hwalk halloc hsingle _ fun _ => False) hC⟩
  · refine ⟨fun w hw => ?_, hconf.edit
      (created_of_mkdirWrites hwalk halloc hsingle htake.1 st.currentDirCluster _).edit hC⟩
    rcases List.mem_append.mp hw with hw | hw
    · exact hbelow w hw
    · rw [List.mem_singleton.mp hw]
      exact hconf.slot hwalk htake.1

/-- A write is its delete and its store. -/
theorem fatWrite_inside [DecidablePred ok] (hw : Window st.mount.totalClusters ok)
    {name : CString} {data : ℕ → UInt8} {size : ℕ} (hsize : size < 2 ^ 32)
    (htakes : (Op.write name data size).TakesIn ok ⟨st, d⟩)
    (h : (fatWrite fuel st name data size).Returns d (r, st') writes) :
    ReadsStay (InVolume st.mount ok) (fatWrite fuel st name data size) d ∧
      (∀ w ∈ writes, InVolume st.mount ok w.1) ∧
        Confined st.mount ok (fatAt st.mount (applyWrites writes d)) := by
  have hs := hready.sound
  obtain ⟨l, hreplaced, hsupplies⟩ := htakes
  -- what the store takes once a delete is done
  have hclusters {code : ℤ} {st₁ : Driver} {first : List (ℕ × Sector)}
      (hdelete : (fatDelete fuel st name).Returns d (code, st₁) first) :
      (∃ fatBuf, st₁ = st.keepBuf .delete fatBuf) ∧ Ready st₁ (applyWrites first d) ∧
        Confined st.mount ok (fatAt st.mount (applyWrites first d)) ∧
        ∀ a, tableAlloc st.mount (applyWrites first d) (st.fatBuf .write)
          (clustersFor st.mount size) = .ok a → ∀ c ∈ a.clusters, ok c := by
    refine ⟨(fatDelete_change hready hdelete).1, hready.fatDelete hdelete,
      (removeEntry_writes hready hconf (fun _ hnamed => hnamed.file.1) hdelete).2,
      fun a halloc => ?_⟩
    rw [← table_after_delete hs hready.cwd hdelete hreplaced] at hsupplies
    exact (hw.clusters_ok_iff (fun h => absurd rfl h) halloc).mpr hsupplies
  constructor
  · have hparts : fatWrite fuel st name data size = fatDelete fuel st name >>= fun deleted =>
        storeFile fuel deleted.2 name data size >>= fun stored => .ret (stored.1.1, stored.2) := by
      rw [fatWrite, fatWriteTaken, if_pos hs.valid.initialized, bind_assoc]
    rw [hparts]
    refine (removeEntry_reads hready hconf .delete (fileVerdict name) fuel).bind ?_
    rintro ⟨code, st₁⟩ first hdelete
    obtain ⟨⟨fatBuf, rfl⟩, hready₁, hconf₁, htaken⟩ := hclusters hdelete
    exact (storeFile_reads hready₁ hconf₁ name data hsize htaken fuel).bind fun _ _ _ => trivial
  · obtain ⟨code, fatBuf, taken, first, second, hdelete, hstore, rfl, -, -⟩ :=
      fatWrite_split hs hready.cwd h
    obtain ⟨-, hready₁, hconf₁, htaken⟩ := hclusters hdelete
    obtain ⟨hinside, hconf₂⟩ := storeFile_writes hready₁ hconf₁ hsize htaken hstore
    rw [applyWrites_append]
    refine ⟨fun w hw => ?_, hconf₂⟩
    rcases List.mem_append.mp hw with hw | hw
    · exact (removeEntry_writes hready hconf (fun _ hnamed => hnamed.file.1) hdelete).1 w hw
    · exact hinside w hw

/-- A call that takes clusters of the set stays on the volume, and leaves a table that uses
only clusters of the set. -/
theorem call_inside [DecidablePred ok] (hw : Window st.mount.totalClusters ok) {op : Op}
    (hregular : op.Regular ⟨st, d⟩) (htakes : op.TakesIn ok ⟨st, d⟩)
    (h : (op.run fuel st).Returns d (r, st') writes) :
    Prog.Stays (InVolume st.mount ok) (op.run fuel st) d ∧
      Confined st.mount ok (fatAt st.mount (applyWrites writes d)) := by
  suffices hparts : ReadsStay (InVolume st.mount ok) (op.run fuel st) d ∧
      (∀ w ∈ writes, InVolume st.mount ok w.1) ∧
        Confined st.mount ok (fatAt st.mount (applyWrites writes d)) by
    refine ⟨stays_iff.mpr ⟨hparts.1, fun w hmem => hparts.2.1 w ?_⟩, hparts.2.2⟩
    rwa [show (op.run fuel st).exec d = (.ok (r, st'), writes) from h] at hmem
  cases op with
  | write name data size => exact fatWrite_inside hready hconf hw hregular.1 htakes h
  | delete name =>
      exact ⟨removeEntry_reads hready hconf _ _ _,
        removeEntry_writes hready hconf (fun _ hnamed => hnamed.file.1) h⟩
  | rename oldName newName =>
      exact ⟨fatRename_reads hready hconf _ _ _, fatRename_writes hready hconf h⟩
  | mkdir name =>
      have hclusters (a : Chained)
          (halloc : tableAlloc st.mount d (st.fatBuf .mkdir) 1 = .ok a) : ∀ c ∈ a.clusters, ok c :=
        (hw.clusters_ok_iff (fun h => absurd rfl h) halloc).mpr htakes
      exact ⟨fatMkdir_reads hready hconf _ hclusters _, fatMkdir_writes hready hconf hclusters h⟩
  | rmdir name =>
      exact ⟨removeEntry_reads hready hconf _ _ _, removeEntry_writes hready hconf
        (fun _ hnamed => (hnamed.dir hready.wellFormed hready.cwd).1) h⟩
  | cd name =>
      obtain ⟨rfl, -⟩ := fatCd_outcome (hready.sound.walks hready.cwd) h
      exact ⟨fatCd_reads hready hconf _ _, fun w hw => absurd hw List.not_mem_nil, hconf⟩

end Outcomes

/-! ## Runs -/

/-- Reading a file writes nothing, and changes nothing but its buffer. -/
theorem fatRead_keeps {st : Driver} {fuel : ℕ} (name : CString) (buf : ℕ → UInt8) (bufSize : ℕ) :
    ReadOnly (fatRead fuel st name buf bufSize) ∧
      Always (fun r => ∃ fatBuf, r.2 = st.keepBuf .read fatBuf)
        (fatRead fuel st name buf bufSize) := by
  have hsectors (lba fileSize left s bytesRead : ℕ) (buf : ℕ → UInt8) :
      ReadOnly (readSectors lba fileSize bufSize left s bytesRead buf) := by
    induction left generalizing s bytesRead buf with
    | zero => trivial
    | succ left ih =>
        intro answer
        cases answer with
        | none => trivial
        | some sector =>
            show ReadOnly (ite _ _ _)
            split_ifs <;> first | exact ih _ _ _ | exact True.intro
  have hchain (fatBuf : FatBuf) (fileSize fuel c bytesRead : ℕ) (buf : ℕ → UInt8) :
      ReadOnly (readChain st.mount fatBuf fileSize bufSize fuel c bytesRead buf) := by
    induction fuel generalizing c bytesRead buf with
    | zero => trivial
    | succ fuel ih =>
        rw [readChain]
        split_ifs
        · refine (hsectors _ _ _ _ _ _).bind fun step => ?_
          cases step with
          | failed buf => trivial
          | finished bytesRead buf => trivial
          | more bytesRead buf =>
              refine (readOnly_loadEntry fatBuf c).bind fun next => ?_
              split_ifs
              · trivial
              · exact ih _ _ _
        · trivial
  constructor
  · unfold fatRead withFat
    split_ifs
    · refine (readOnly_loadFat st.mount st.mount.fatSecs 0 (st.fatBuf .read)).bind fun r => ?_
      dsimp only
      split_ifs
      · trivial
      · refine (readOnly_findSlot _ _ _ _ _ _).bind fun found => ?_
        cases found with
        | none => trivial
        | some hit =>
            dsimp only
            split_ifs
            · trivial
            · refine (hchain _ _ _ _ _ _).bind fun result => ?_
              rcases result with ⟨_ | bytesRead, buf'⟩ <;> trivial
    · trivial
  · refine withFat_always (P := fun r => ∃ fatBuf, r.2 = st.keepBuf .read fatBuf)
      ⟨st.fatBuf .read, by simp [Driver.keepBuf]⟩ (fun fatBuf _ => ⟨fatBuf, rfl⟩)
      fun fatBuf _ => ?_
    refine (always_trivial _).bind fun found _ => ?_
    cases found with
    | none => exact ⟨fatBuf, rfl⟩
    | some hit =>
        dsimp only
        split_ifs
        · exact ⟨fatBuf, rfl⟩
        · refine (always_trivial _).bind fun result _ => ?_
          rcases result with ⟨_ | bytesRead, buf'⟩ <;> exact ⟨fatBuf, rfl⟩

/-- So does a listing. -/
theorem fatList_keepsBuf {st : Driver} {fuel : ℕ} (max : ℤ) :
    Always (fun r => ∃ fatBuf, r.2 = st.keepBuf .list fatBuf) (fatList fuel st max) := by
  refine withFat_always (P := fun r => ∃ fatBuf, r.2 = st.keepBuf .list fatBuf)
    ⟨st.fatBuf .list, by simp [Driver.keepBuf]⟩ (fun fatBuf _ => ⟨fatBuf, rfl⟩) fun fatBuf _ => ?_
  exact (always_trivial _).bind fun _ _ => ⟨fatBuf, rfl⟩

/-- Between two calls the volume is well formed, and has all that its table uses. -/
structure OnVolume (s : System) : Prop where
  ready : Ready s.driver s.disk
  confined : Confined s.driver.mount (GoodCluster s.driver.mount) (fatAt s.driver.mount s.disk)
  front : s.driver.mount.dataStart ≤ s.driver.mount.totalSectors

/-- If the call takes clusters, the volume has them. -/
def Call.Supplied (s : System) : Call → Prop
  | .op o => o.Regular s ∧ o.TakesIn (GoodCluster s.driver.mount) s
  | .list _ | .read _ _ _ => True

/-- One supplied call that returns. -/
inductive SuppliedStep : System → System → Prop
  | call {s : System} (call : Call) {fuel : ℕ} {r : ℤ} {st : Driver}
      {writes : List (ℕ × Sector)} : call.Supplied s →
      (call.run fuel s.driver).Returns s.disk (r, st) writes →
      SuppliedStep s ⟨st, applyWrites writes s.disk⟩

theorem InVolume.lt {m : Mount} {lba : ℕ} (h : InVolume m (GoodCluster m) lba) (hu : m.Usable)
    (hfront : m.dataStart ≤ m.totalSectors) : lba < m.totalSectors := by
  rcases h with hlow | ⟨c, k, hgood, hk, rfl⟩
  · omega
  · have hlt := hgood.1.lt
    have hlast := hgood.2
    rw [hu.clusterLba_eq hgood.1.1 (by omega) hk]
    omega

/-- A driver with other buffers is on the same volume. -/
theorem OnVolume.keepBuf {st : Driver} {d : Disk} (h : OnVolume ⟨st, d⟩) (owner : Owner)
    (fatBuf : FatBuf) : OnVolume ⟨st.keepBuf owner fatBuf, d⟩ :=
  ⟨ready_keepBuf_iff.mpr h.ready, h.confined, h.front⟩

/-- Of a program that only reads, the reads are all accesses. -/
theorem stays_of_readOnly {α : Type} {P : ℕ → Prop} {p : FatProg α} {d : Disk} (honly : ReadOnly p)
    (hreads : ReadsStay P p d) : Prog.Stays P p d := by
  refine stays_iff.mpr ⟨hreads, fun w hw => ?_⟩
  rw [honly.exec_snd d] at hw
  cases hw

/-- A call that only reads. -/
theorem OnVolume.reads {st st' : Driver} {d : Disk} (h : OnVolume ⟨st, d⟩) {α : Type}
    {p : FatProg (α × Driver)} (hreads : ReadsStay (InVolume st.mount (GoodCluster st.mount)) p d)
    (honly : ReadOnly p) {owner : Owner}
    (hkeeps : Always (fun r => ∃ fatBuf, r.2 = st.keepBuf owner fatBuf) p) {value : α}
    {writes : List (ℕ × Sector)} (hreturns : p.Returns d (value, st') writes) :
    Prog.Stays (InVolume st.mount (GoodCluster st.mount)) p d ∧
      OnVolume ⟨st', applyWrites writes d⟩ := by
  have hnone : (p.exec d).2 = [] := honly.exec_snd d
  have hwrites : writes = [] := by rwa [show p.exec d = _ from hreturns] at hnone
  obtain ⟨fatBuf, rfl⟩ := hkeeps.of_returns hreturns
  subst hwrites
  exact ⟨stays_of_readOnly honly hreads, h.keepBuf owner fatBuf⟩

/-- What one call does. -/
theorem OnVolume.call {st st' : Driver} {d : Disk} (h : OnVolume ⟨st, d⟩) {call : Call}
    (hsupplied : call.Supplied ⟨st, d⟩) {fuel : ℕ} {r : ℤ} {writes : List (ℕ × Sector)}
    (hreturns : (call.run fuel st).Returns d (r, st') writes) :
    Prog.Stays (InVolume st.mount (GoodCluster st.mount)) (call.run fuel st) d ∧
      OnVolume ⟨st', applyWrites writes d⟩ := by
  have hready : Ready st d := h.ready
  cases call with
  | list max =>
      have hreads : ReadsStay (InVolume st.mount (GoodCluster st.mount))
          (Call.run fuel st (.list max)) d :=
        (fatList_reads hready h.confined max fuel).bind fun _ _ _ => trivial
      have honly : ReadOnly (Call.run fuel st (.list max)) :=
        (readOnly_fatList fuel st max).bind fun _ => trivial
      have hkeeps : Always (fun r => ∃ fatBuf, r.2 = st.keepBuf .list fatBuf)
          (Call.run fuel st (.list max)) :=
        (fatList_keepsBuf max).bind fun _ hr => hr
      exact h.reads hreads honly hkeeps hreturns
  | read name buf bufSize =>
      obtain ⟨honly, hkeeps⟩ := @fatRead_keeps st fuel name buf bufSize
      have hreads : ReadsStay (InVolume st.mount (GoodCluster st.mount))
          (Call.run fuel st (.read name buf bufSize)) d :=
        (fatRead_reads hready h.confined name buf bufSize fuel).bind fun _ _ _ => trivial
      have honly' : ReadOnly (Call.run fuel st (.read name buf bufSize)) :=
        honly.bind fun _ => trivial
      have hkeeps' : Always (fun r => ∃ fatBuf, r.2 = st.keepBuf .read fatBuf)
          (Call.run fuel st (.read name buf bufSize)) := hkeeps.bind fun _ hr => hr
      exact h.reads hreads honly' hkeeps' hreturns
  | op op =>
      obtain ⟨hregular, htakes⟩ := hsupplied
      obtain ⟨hstays, hconf'⟩ := call_inside hready h.confined
        (window_goodCluster st.mount) hregular htakes hreturns
      have hmount : st'.mount = st.mount :=
        ((Call.run_tails fuel st (.op op)).of_returns hreturns).mount
      refine ⟨hstays, hready.step_regular (.call op hregular hreturns), ?_, ?_⟩
      · dsimp only
        rw [hmount]
        exact hconf'
      · dsimp only
        rw [hmount]
        exact h.front

/-- Every state of a run is on the volume that it began with. -/
theorem OnVolume.run {s s' : System} (h : OnVolume s)
    (hrun : Relation.ReflTransGen SuppliedStep s s') :
    OnVolume s' ∧ s'.driver.mount = s.driver.mount := by
  induction hrun with
  | refl => exact ⟨h, rfl⟩
  | tail _ hstep ih =>
      obtain ⟨call, hsupplied, hreturns⟩ := hstep
      have hmount := ((Call.run_tails _ _ call).of_returns hreturns).mount
      exact ⟨(ih.1.call hsupplied hreturns).2, hmount.trans ih.2⟩

/-- **No run leaves the volume.** In every state that supplied calls reach, every access of the
next one is of a sector that the volume has. -/
theorem run_stays_on_volume {s s' : System} (h : OnVolume s)
    (hrun : Relation.ReflTransGen SuppliedStep s s') {call : Call} (hsupplied : call.Supplied s')
    {fuel : ℕ} {r : ℤ} {st : Driver} {writes : List (ℕ × Sector)}
    (hreturns : (call.run fuel s'.driver).Returns s'.disk (r, st) writes) :
    Prog.Stays (· < s.driver.mount.totalSectors) (call.run fuel s'.driver) s'.disk := by
  obtain ⟨hvolume, hmount⟩ := h.run hrun
  rw [← hmount]
  exact (hvolume.call hsupplied hreturns).1.mono fun lba hlba =>
    hlba.lt hvolume.ready.sound.valid.usable hvolume.front

/-- A blank volume has all that its table uses. -/
theorem onVolume_blankSystem : OnVolume blankSystem where
  ready := ready_blankSystem
  confined c _ hne := absurd (fatAt_blank _ c) hne
  front := by decide

theorem supplied_write_blank : Call.Supplied blankSystem (.op (.write nameA (fun _ => 7) 1)) := by
  refine ⟨regular_write_blank, [], Or.inr ⟨not_named_blank _ _ _, rfl⟩, Or.inl ?_⟩
  refine Finset.card_pos.mpr ⟨2, (window_goodCluster smallMount).mem_freeIn.mpr ⟨by decide, ?_⟩⟩
  exact (fatNextCluster_loaded (show Loaded smallMount 2 by decide)).trans (fatAt_blank _ _)

/-- On a blank volume `A` is written, and then `B` is looked for. -/
theorem run_stays_on_volume_blank : ∃ s' : System, s'.disk = fileDisk ∧
    Prog.Stays (· < 342)
      ((Call.read nameB (fun _ => 0) 1).run (loopBound + 1) s'.driver) s'.disk := by
  obtain ⟨st, hstore⟩ := storeA_returns
  obtain ⟨hready, hmount, hcwd, -⟩ := fatWrite_changes ready_blankSystem regular_write_blank hstore
  have hstep : SuppliedStep blankSystem ⟨st, fileDisk⟩ := .call _ supplied_write_blank hstore
  have hread := fatRead_not_found hready.sound.valid.usable
    (hready.sound.dirOk hready.cwd).finite (Nat.lt_succ_self loopBound) (fun _ => 0) 1
    fun n loc htake => not_named_fileDisk loc ⟨n, by rwa [hmount, hcwd] at htake⟩
  have hcall : ((Call.read nameB (fun _ => 0) 1).run (loopBound + 1) st).Returns fileDisk _ [] :=
    hread.bind_nil rfl
  have hsupplied : (Call.read nameB (fun _ => 0) 1).Supplied ⟨st, fileDisk⟩ := trivial
  exact ⟨_, rfl, run_stays_on_volume onVolume_blankSystem (.single hstep) hsupplied hcall⟩

end MasterOS.Fat
