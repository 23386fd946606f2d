/-
# How much of a volume is used

`fat_get_used_kb` walks the root directory, whatever directory is current, and adds up the
sizes its records give, in bytes. Of the store that the volume stands for that is the length
of the files in the root together, cut to 32 bits: a directory counts nothing as long as its
record says so, and the driver never makes one that says anything else.
-/

import MasterOS.Fat.Shown
import MasterOS.Fat.AnySearch

namespace MasterOS.Fat

open MasterOS.Device MasterOS.Device.Prog MasterOS.Math

/-! ## The sum of a scan -/

/-- What a record adds. -/
def RawDirEntry.usedBytes (e : RawDirEntry) : UInt32 :=
  if e.isDeleted || e.isLabel then 0 else e.fileSize

/-- What the records in front of the end add. -/
theorem usedSlots_append {sector : Sector} (l rest : List ℕ)
    (hl : ∀ i ∈ l, (sector.entry i).isEnd = false) (used : UInt32) :
    usedSlots sector (l ++ rest) used =
      usedSlots sector rest (((l.map sector.entry).map (·.usedBytes)).foldl (· + ·) used) := by
  induction l generalizing used with
  | nil => rfl
  | cons i l ih =>
      have hi := hl i List.mem_cons_self
      have hrest := ih fun j hj => hl j (List.mem_cons_of_mem _ hj)
      rw [List.cons_append, usedSlots, if_neg (by rw [hi]; decide), List.map_cons, List.map_cons,
        List.foldl_cons, RawDirEntry.usedBytes]
      split_ifs
      · rw [hrest used, UInt32.add_zero]
      · exact hrest _

/-- A sector of the root directory, or the end behind the last one. -/
theorem readDirSector_root {m : Mount} {fatBuf : FatBuf} {s : ℕ} {d : Disk}
    {result : Except ℤ Sector} (h : (readDirSector m 0 fatBuf s).Returns d result []) :
    m.rootSectors ≤ s ∧ result = .error 1 ∨
      s < m.rootSectors ∧ result = .ok (d ((m.rootStart + s) % 2 ^ 32 % 2 ^ 28)) := by
  rw [Returns, readDirSector, if_pos rfl] at h
  by_cases hs : m.rootSectors ≤ s
  · rw [if_pos hs] at h
    exact Or.inl ⟨hs, (Except.ok.inj (Prod.mk.inj h).1).symm⟩
  · rw [if_neg hs] at h
    exact Or.inr ⟨not_le.mp hs, (Except.ok.inj (Prod.mk.inj h).1).symm⟩

theorem ataRead_exec (lba : ℕ) (d : Disk) : (ataRead lba).Returns d (some (d (lba % 2 ^ 28))) [] :=
  rfl

/-- **The loops add up the records of the root directory up to its end.** -/
theorem usedSectors_of_scan {m : Mount} {fatBuf : FatBuf} {d : Disk} (hroot : m.rootSectors < 2 ^ 21)
    {s n : ℕ} {es : List RawDirEntry} (h : DirScan m 0 fatBuf d s n es) {left : ℕ}
    (hleft : s + left = m.rootSectors) (used : UInt32) :
    (usedSectors m left s used).Returns d ((es.map (·.usedBytes)).foldl (· + ·) used) [] := by
  induction h generalizing left used with
  | past hread =>
      rcases readDirSector_root hread with ⟨hle, -⟩ | ⟨-, hresult⟩
      · obtain rfl : left = 0 := by omega
        rfl
      · cases hresult
  | @ended s sector i hread hi hend hbefore =>
      rcases readDirSector_root hread with ⟨-, hresult⟩ | ⟨hlt, hresult⟩
      · cases hresult
      · obtain ⟨left, rfl⟩ : ∃ k, left = k + 1 := ⟨left - 1, by omega⟩
        obtain rfl := Except.ok.inj hresult
        have hslots := usedSlots_append (List.range i) (i :: List.range' (i + 1) (15 - i))
          (fun j hj => hbefore j (List.mem_range.mp hj)) used
        rw [← range_eq_append_cons hi, usedSlots] at hslots
        simp only [hend, if_true] at hslots
        refine (ataRead_exec _ d).bind_nil ?_
        simp only [hslots]
        rfl
  | @next s n sector es hread hall _ ih =>
      rcases readDirSector_root hread with ⟨-, hresult⟩ | ⟨hlt, hresult⟩
      · cases hresult
      · obtain ⟨left, rfl⟩ : ∃ k, left = k + 1 := ⟨left - 1, by omega⟩
        obtain rfl := Except.ok.inj hresult
        have hslots := usedSlots_append (List.range 16) []
          (fun j hj => hall j (List.mem_range.mp hj)) used
        rw [List.append_nil, usedSlots] at hslots
        have hmod : (s + 1) % 2 ^ 32 = s + 1 := Nat.mod_eq_of_lt (by omega)
        have hrest := @ih left (by omega)
          ((((List.range 16).map (d ((m.rootStart + s) % 2 ^ 32 % 2 ^ 28)).entry).map
            (·.usedBytes)).foldl (· + ·) used)
        rw [hmod] at hrest
        rw [List.map_append, List.foldl_append]
        refine (ataRead_exec _ d).bind_nil ?_
        simp only [hslots]
        exact hrest

/-- A sum of words is the sum of their values, cut to 32 bits. -/
theorem toNat_foldl_add (l : List UInt32) (used : UInt32) :
    (l.foldl (· + ·) used).toNat = (used.toNat + (l.map UInt32.toNat).sum) % 2 ^ 32 := by
  induction l generalizing used with
  | nil =>
      have hlt := used.toNat_lt
      rw [List.foldl_nil, List.map_nil, List.sum_nil, Nat.add_zero, Nat.mod_eq_of_lt hlt]
  | cons x l ih =>
      rw [List.foldl_cons, ih, List.map_cons, List.sum_cons, UInt32.toNat_add]
      omega

/-! ## Directories that take nothing -/

/-- The record of a directory in the root says size 0. -/
def EmptyDirs (m : Mount) (d : Disk) : Prop :=
  ∀ n loc, slotAt m (fatAt m d) 0 n = some loc → (entryAt d loc).isDir = true →
    (entryAt d loc).fileSize = 0

/-- A change keeps that, when the record it puts in has it. -/
theorem EmptyDirs.change {m : Mount} {d d' : Disk} (h : EmptyDirs m d) (hv : m.Valid) {dirc : ℕ}
    {put : Option (Loc × RawDirEntry)} (hchange : Change m dirc d d' put)
    (hput : ∀ loc e, put = some (loc, e) → e.isDir = true → e.fileSize = 0) :
    EmptyDirs m d' := by
  have hdir : DirOk m (fatAt m d) 0 := Or.inl rfl
  intro n loc hslot
  -- the slots of the root lie where they lay, and all but one hold what they held
  have hkept {S : Loc → Prop} {C : List ℕ} (hedit : Edit m d d' S C) (hS : ¬ S loc) :
      (entryAt d' loc).isDir = true → (entryAt d' loc).fileSize = 0 := by
    rw [hedit.entryAt_eq hv hdir (fun _ hld => absurd hld.ok_head.1 (by decide)) hslot hS]
    exact h n loc hslot
  cases hchange with
  | nothing hedit _ => exact hkept hedit id
  | @removed _ x _ _ _ hremoved =>
      by_cases hx : loc = x
      · subst hx
        rw [hremoved.entry]
        exact h n loc hslot
      · exact hkept hremoved.edit hx
  | @renamed _ x newName _ hfile hedit hentry =>
      by_cases hx : loc = x
      · subst hx
        rw [hentry]
        exact hput loc _ rfl
      · exact hkept hedit hx
  | @created _ x e _ _ hcreated _ _ _ =>
      by_cases hx : loc = x
      · subst hx
        rw [hcreated.entry]
        exact hput loc e rfl
      · exact hkept hcreated.edit hx

/-- **A call keeps directories without a size**, whatever it stores. -/
theorem EmptyDirs.served {s s' : System} {F : Files} (hF : Stands s F)
    {label : Request (List UInt8) UInt8 × Reply UInt8} (hstep : Served s label s')
    (h : EmptyDirs s.driver.mount s.disk) : EmptyDirs s'.driver.mount s'.disk := by
  obtain ⟨st, d⟩ := s
  have hready : Ready st d := hF.ready
  have hv := hready.sound.valid
  cases hstep with
  | read name hbuf hread =>
      obtain ⟨⟨fatBuf, rfl⟩, rfl, -⟩ := hF.read hbuf hread
      exact h
  | call op hregular hnew hplain hreturns =>
      cases op with
      | write name data size =>
          obtain ⟨-, hmount, -, -, d₁, put, hready₁, hdelete, hstore, -, hput⟩ :=
            fatWrite_changes hready hregular hreturns
          rw [hmount]
          refine (h.change hv hdelete nofun).change hv hstore fun loc e heq hdir => ?_
          obtain ⟨-, -, c, rfl⟩ := hput loc e heq
          exact absurd hdir (by simp [RawDirEntry.isDir, newEntry])
      | delete name =>
          obtain ⟨⟨fatBuf, rfl⟩, hchange⟩ := fatDelete_change hready hreturns
          exact h.change hv hchange nofun
      | rename oldName newName =>
          obtain ⟨⟨fatBuf, rfl⟩, put, hchange, hput⟩ := fatRename_change hready hreturns
          refine h.change hv hchange fun loc e heq hdir => ?_
          obtain ⟨hnamed, rfl⟩ := hput loc e heq
          exact absurd (hnamed.file.2.1.symm.trans hdir) (by decide)
      | mkdir name =>
          obtain ⟨-, ⟨fatBuf, rfl⟩, put, hchange, hput⟩ :=
            fatMkdir_change hready hregular.1 hregular.2 hreturns
          refine h.change hv hchange fun loc e heq _ => ?_
          obtain ⟨-, -, c, rfl⟩ := hput loc e heq
          rfl
      | rmdir name =>
          obtain ⟨⟨fatBuf, rfl⟩, hchange⟩ := fatRmdir_change hready hreturns
          exact h.change hv hchange nofun
      | cd name =>
          obtain ⟨rfl, hmount, -⟩ := fatCd_outcome (hready.sound.walks hready.cwd) hreturns
          rw [hmount]
          exact h

/-! ## What is used of a store -/

/-- A sum over the elements of a kind, when the others add nothing. -/
theorem sum_filter_eq {α : Type} (p : α → Bool) (f g : α → ℕ) (l : List α)
    (hkind : ∀ x ∈ l, p x = true → f x = g x) (hother : ∀ x ∈ l, p x = false → g x = 0) :
    ((l.filter p).map f).sum = (l.map g).sum := by
  induction l with
  | nil => rfl
  | cons x l ih =>
      have hrest := ih (fun y hy => hkind y (List.mem_cons_of_mem _ hy))
        fun y hy => hother y (List.mem_cons_of_mem _ hy)
      cases hx : p x with
      | true =>
          rw [List.filter_cons_of_pos hx, List.map_cons, List.sum_cons, hrest, List.map_cons,
            List.sum_cons, hkind x List.mem_cons_self hx]
      | false =>
          rw [List.filter_cons_of_neg (by rw [hx]; decide), hrest, List.map_cons, List.sum_cons,
            hother x List.mem_cons_self hx, Nat.zero_add]

/-- What a live record adds is what it stands for. -/
theorem StandsFor.usedBytes {m : Mount} {d : Disk} {e : RawDirEntry} {node : Node ℕ UInt8}
    (h : StandsFor m d e node) (hlive : e.live = true)
    (hempty : e.isDir = true → e.fileSize = 0) : e.usedBytes.toNat = node.size := by
  have hcounts : (e.isDeleted || e.isLabel) = false := by
    unfold RawDirEntry.live at hlive
    cases hdel : e.isDeleted <;> cases hlabel : e.isLabel <;> simp_all
  rw [RawDirEntry.usedBytes, hcounts, if_neg (by decide)]
  cases node with
  | file content => exact h.2.1
  | dir id =>
      rw [hempty h.1]
      rfl

/-- What is no live record adds nothing. -/
theorem usedBytes_of_not_live {e : RawDirEntry} (hend : e.isEnd = false) (hlive : e.live = false)
    (hempty : e.isDir = true → e.fileSize = 0) : e.usedBytes = 0 := by
  unfold RawDirEntry.live at hlive
  unfold RawDirEntry.usedBytes
  cases hdel : e.isDeleted <;> cases hlabel : e.isLabel <;> simp_all

/-- **What is used is what the files in the root take**, whatever directory is current. -/
theorem Stands.used {st : Driver} {d : Disk} {F : Files} (hF : Stands ⟨st, d⟩ F)
    (hempty : EmptyDirs st.mount d) :
    (fatGetUsedKb st).Returns d (UInt32.ofNat (F.bytes F.root)) [] := by
  have hs : Sound st.mount d := hF.ready.sound
  have hv := hs.valid
  have hdir : DirOk st.mount (fatNextCluster (st.fatBuf .list)) 0 := Or.inl rfl
  obtain ⟨n, locs, hscan, -, hloaded⟩ := (hdir.readable hv.usable).exists_scan d
    (show 0 + 2 ^ 21 = 2 ^ 21 from rfl)
  have hslots : Slots st.mount (fatAt st.mount d) d 0 0 locs :=
    ⟨hloaded.slot, hloaded.before, hloaded.ended⟩
  have hreturns := usedSectors_of_scan hv.usable.rootSectors_lt hscan
    (Nat.zero_add st.mount.rootSectors) 0
  have hsize (loc : Loc) (hloc : loc ∈ locs) (hisDir : (entryAt d loc).isDir = true) :
      (entryAt d loc).fileSize = 0 := by
    obtain ⟨i, hi, rfl⟩ := List.mem_iff_getElem.mp hloc
    have hslot := hslots.slot i _ (List.getElem?_eq_getElem hi)
    exact hempty _ _ hslot hisDir
  have hliveAt {loc : Loc} (hloc : loc ∈ locs.filter fun loc => (entryAt d loc).live) :
      ∃ k, LiveAt st.mount d 0 k loc := by
    obtain ⟨hmem, hlive⟩ := List.mem_filter.mp hloc
    exact hslots.liveAt_of_mem hmem hlive
  have hnames : ((locs.filter fun loc => (entryAt d loc).live).map
      fun loc => (entryAt d loc).key).Nodup := by
    refine List.Nodup.map_on (fun x hx y hy hkey => ?_) ((hslots.nodup hs .root).filter _)
    obtain ⟨k, hlivex⟩ := hliveAt hx
    obtain ⟨k', hlivey⟩ := hliveAt hy
    exact hF.unique 0 k k' x y .root hlivex hlivey ((sameName_iff_key _ _).mpr hkey)
  have hbytes : F.bytes F.root = (locs.map fun loc => (entryAt d loc).usedBytes.toNat).sum := by
    rw [hF.root, Store.bytes_eq_sum hnames fun name node hnode => ?_, List.map_map]
    · refine sum_filter_eq _ _ _ locs (fun loc hloc hlive => ?_) fun loc hloc hlive => ?_
      · obtain ⟨k, hat⟩ := hliveAt (List.mem_filter.mpr ⟨hloc, hlive⟩)
        obtain ⟨node, hnode, hstands⟩ := hF.shows.node 0 k loc .root hat
        rw [hstands.usedBytes hlive (hsize loc hloc)]
        exact congrArg (Option.elim · 0 Node.size) hnode
      · rw [usedBytes_of_not_live (hslots.before loc hloc) hlive (hsize loc hloc)]
        rfl
    · obtain ⟨k, loc, hat, rfl⟩ := hF.shows.entry 0 name node .root hnode
      have hmem := hslots.mem_of_liveAt hs .root hat
      exact List.mem_map.mpr ⟨loc, List.mem_filter.mpr ⟨hmem, hat.2.1⟩, rfl⟩
  have hvalue : ((locs.map (entryAt d)).map (·.usedBytes)).foldl (· + ·) 0 =
      UInt32.ofNat (F.bytes F.root) := by
    apply UInt32.toNat_inj.mp
    rw [toNat_foldl_add, hbytes, UInt32.toNat_ofNat', List.map_map, List.map_map]
    exact congrArg (· % 2 ^ 32) (Nat.zero_add _)
  rw [hvalue] at hreturns
  rw [Returns, fatGetUsedKb, if_pos hv.initialized]
  exact hreturns

/-- **What is used after a run** is what the root of a store takes that answers the run's
requests as they were answered. -/
theorem used_after_run {s s' : System} {F : Files} (hF : Stands s F)
    (hempty : EmptyDirs s.driver.mount s.disk)
    {labels : List (Request (List UInt8) UInt8 × Reply UInt8)} (htrace : Trace Served s labels s') :
    ∃ F', Trace Store.Step F labels F' ∧
      (fatGetUsedKb s'.driver).Returns s'.disk (UInt32.ofNat (F'.bytes F'.root)) [] := by
  suffices ∃ F', Trace Store.Step F labels F' ∧ Stands s' F' ∧
      EmptyDirs s'.driver.mount s'.disk by
    obtain ⟨F', hstore, hF', hempty'⟩ := this
    exact ⟨F', hstore, hF'.used hempty'⟩
  induction htrace generalizing F with
  | nil => exact ⟨F, .nil F, hF, hempty⟩
  | cons hstep _ ih =>
      obtain ⟨F₁, hstep', hF₁⟩ := simulates_store _ _ _ _ hF hstep
      obtain ⟨F', hstore, hF', hempty'⟩ := ih hF₁ (hempty.served hF hstep)
      exact ⟨F', .cons hstep' hstore, hF', hempty'⟩

theorem emptyDirs_blankSystem :
    EmptyDirs blankSystem.driver.mount blankSystem.disk := by
  intro n loc _ hdir
  have hzero : (entryAt blank loc).attributes = 0 := byte_zeroSector _
  rw [RawDirEntry.isDir, show blankSystem.disk = blank from rfl, hzero] at hdir
  exact absurd hdir (by decide)

/-- After a write of one byte to a blank volume one byte is used. -/
theorem used_after_run_blank : ∃ s', Trace Served blankSystem [(.write nameA.key [7], .done)] s' ∧
    (fatGetUsedKb s'.driver).Returns s'.disk 1 [] := by
  have htrace := Trace.single served_oneFile
  obtain ⟨F', hstore, hused⟩ := used_after_run stands_blankSystem emptyDirs_blankSystem htrace
  have hbytes : F'.bytes F'.root = 1 := by
    cases hstore with
    | cons hstep hrest =>
        cases hrest
        cases hstep
        rw [Store.bytes_eq_sum (List.nodup_singleton nameA.key) fun name node hnode => ?_]
        · rw [List.map_singleton, List.sum_singleton, Store.set_tree, if_pos ⟨rfl, rfl⟩]
          rfl
        · rw [Store.set_tree] at hnode
          split_ifs at hnode with hname
          · exact List.mem_singleton.mpr hname.2
          · cases hnode
  rw [hbytes] at hused
  exact ⟨oneFile, htrace, hused⟩

end MasterOS.Fat
