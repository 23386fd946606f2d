/-
# Listing a directory

`fat_list`, the file search of `fat_read` and the search of `fat_cd` are three loops over
the current directory, each with its own tests and its own way to end. What they visit is
one list: the records of the directory up to its end. The listing is a filter of that
list and a lookup is its first record of a kind, so the two agree on every disk.

The one difference is behind the lookup. `fat_cd` appends the name it found to a path of
256 bytes without looking at the path's length.
-/

import MasterOS.Fat.Blank

namespace MasterOS.Fat

open MasterOS.Device MasterOS.Device.Prog MasterOS.Math

/-! ## The table on any mounted volume -/

/-- The table an operation loads, under any geometry: addresses wrap at 32 bits and the
drive is given 28 of them. -/
def loadedTable (m : Mount) (d : Disk) (fatBuf : FatBuf) : FatBuf := fun o =>
  if o < m.fatSecs * 512 then (d ((m.fatStart + o / 512) % 2 ^ 32 % 2 ^ 28)).byte (o % 512)
  else fatBuf o

theorem loadFat_returns_loadedTable_aux (m : Mount) (d : Disk) (left s : ℕ) (fatBuf : FatBuf) :
    (loadFat m left s fatBuf).Returns d
      (0, fun o => if 512 * s ≤ o ∧ o < 512 * (s + left) then
        (d ((m.fatStart + o / 512) % 2 ^ 32 % 2 ^ 28)).byte (o % 512) else fatBuf o) [] := by
  induction left generalizing s fatBuf with
  | zero =>
      have hbuf : (fun o => if 512 * s ≤ o ∧ o < 512 * (s + 0) then
          (d ((m.fatStart + o / 512) % 2 ^ 32 % 2 ^ 28)).byte (o % 512) else fatBuf o) =
          fatBuf := by
        funext o
        rw [if_neg (by omega)]
      rw [hbuf]
      rfl
  | succ left ih =>
      have hrest := ih (s + 1)
        (loadSector fatBuf s (d ((m.fatStart + s) % 2 ^ 32 % 2 ^ 28)))
      have hbuf : (fun o => if 512 * (s + 1) ≤ o ∧ o < 512 * (s + 1 + left) then
          (d ((m.fatStart + o / 512) % 2 ^ 32 % 2 ^ 28)).byte (o % 512)
          else loadSector fatBuf s (d ((m.fatStart + s) % 2 ^ 32 % 2 ^ 28)) o) =
          fun o => if 512 * s ≤ o ∧ o < 512 * (s + (left + 1)) then
            (d ((m.fatStart + o / 512) % 2 ^ 32 % 2 ^ 28)).byte (o % 512) else fatBuf o := by
        funext o
        unfold loadSector
        split_ifs with h1 h2 h3 h4 h5 <;> first | rfl | omega | skip
        rw [show o / 512 = s by omega, show o % 512 = o - 512 * s by omega]
      rw [hbuf] at hrest
      exact hrest

/-- `load_fat` on a disk that answers. -/
theorem loadFat_returns_loadedTable (m : Mount) (d : Disk) (fatBuf : FatBuf) :
    (loadFat m m.fatSecs 0 fatBuf).Returns d (0, loadedTable m d fatBuf) [] := by
  have h := loadFat_returns_loadedTable_aux m d m.fatSecs 0 fatBuf
  have hbuf : (fun o => if 512 * 0 ≤ o ∧ o < 512 * (0 + m.fatSecs) then
      (d ((m.fatStart + o / 512) % 2 ^ 32 % 2 ^ 28)).byte (o % 512) else fatBuf o) =
      loadedTable m d fatBuf := by
    funext o
    unfold loadedTable
    split_ifs <;> first | rfl | omega
  rwa [hbuf] at h

/-- The prologue of an operation on a mounted volume. -/
theorem withFat_exec_of_mounted {α : Type} {st : Driver} (hmounted : st.mount.initialized = true)
    (owner : Owner) (failed : α) (body : FatBuf → FatProg (α × Driver)) (d : Disk) :
    (withFat st owner failed body).exec d =
      (body (loadedTable st.mount d (st.fatBuf owner))).exec d := by
  rw [withFat, if_pos hmounted,
    (loadFat_returns_loadedTable st.mount d (st.fatBuf owner)).exec_bind]
  simp

/-- Behind the part of the table that is loaded, `fat_list`, `fat_read` and `fat_cd` find
the same bytes in their buffers. -/
def Driver.SameTails (st : Driver) : Prop :=
  ∀ o, st.mount.fatSecs * 512 ≤ o →
    st.fatBuf .read o = st.fatBuf .list o ∧ st.fatBuf .cd o = st.fatBuf .list o

/-- The three load the same table. -/
theorem Driver.SameTails.loadedTable_eq {st : Driver} (h : st.SameTails) (d : Disk) :
    loadedTable st.mount d (st.fatBuf .read) = loadedTable st.mount d (st.fatBuf .list) ∧
      loadedTable st.mount d (st.fatBuf .cd) = loadedTable st.mount d (st.fatBuf .list) := by
  constructor
  · funext o
    unfold loadedTable
    split_ifs with ho
    · rfl
    · exact (h o (by omega)).1
  · funext o
    unfold loadedTable
    split_ifs with ho
    · rfl
    · exact (h o (by omega)).2

/-! ## The records of a directory -/

/-- `DirScan m dirc fatBuf d s n es`: from sector `s` on, the directory's records up to
its end are `es`, and the end is met in or behind the `n`-th sector from `s`. -/
inductive DirScan (m : Mount) (dirc : ℕ) (fatBuf : FatBuf) (d : Disk) :
    (s n : ℕ) → List RawDirEntry → Prop
  | past {s : ℕ} {code : ℤ} :
      (readDirSector m dirc fatBuf s).Returns d (.error code) [] → DirScan m dirc fatBuf d s 0 []
  | ended {s : ℕ} {sector : Sector} {i : ℕ} :
      (readDirSector m dirc fatBuf s).Returns d (.ok sector) [] → i < 16 →
      (sector.entry i).isEnd = true → (∀ j < i, (sector.entry j).isEnd = false) →
      DirScan m dirc fatBuf d s 0 ((List.range i).map sector.entry)
  | next {s n : ℕ} {sector : Sector} {es : List RawDirEntry} :
      (readDirSector m dirc fatBuf s).Returns d (.ok sector) [] →
      (∀ j < 16, (sector.entry j).isEnd = false) →
      DirScan m dirc fatBuf d ((s + 1) % 2 ^ 32) n es →
      DirScan m dirc fatBuf d s (n + 1) ((List.range 16).map sector.entry ++ es)

/-- No record before the end is the end. -/
theorem DirScan.isEnd_eq_false {m : Mount} {dirc : ℕ} {fatBuf : FatBuf} {d : Disk} {s n : ℕ}
    {es : List RawDirEntry} (h : DirScan m dirc fatBuf d s n es) :
    ∀ e ∈ es, e.isEnd = false := by
  induction h with
  | past _ =>
      intro e he
      simp at he
  | ended _ _ _ hbefore =>
      intro e he
      obtain ⟨j, hj, rfl⟩ := List.mem_map.mp he
      exact hbefore j (List.mem_range.mp hj)
  | next _ hall _ ih =>
      intro e he
      rcases List.mem_append.mp he with he | he
      · obtain ⟨j, hj, rfl⟩ := List.mem_map.mp he
        exact hall j (List.mem_range.mp hj)
      · exact ih e he

/-- The slots of a sector around slot `i`. -/
theorem range_eq_append_cons {i : ℕ} (hi : i < 16) :
    List.range 16 = List.range i ++ i :: List.range' (i + 1) (15 - i) := by
  have htail : i :: List.range' (i + 1) (15 - i) = List.range' (0 + i) (15 - i + 1) := by
    rw [List.range'_succ, Nat.zero_add]
  rw [List.range_eq_range', List.range_eq_range', htail, List.range'_append_1]
  congr 1
  omega

/-! ## A search over the records -/

section Search

variable {verdict : RawDirEntry → Verdict} (hstop : ∀ e, verdict e = .stop ↔ e.isEnd = true)
include hstop

/-- A scan passes over records before the end that it does not take. -/
theorem scanSlots_append {sector : Sector} (l rest : List ℕ)
    (hl : ∀ i ∈ l, (sector.entry i).isEnd = false) :
    scanSlots verdict sector (l ++ rest) =
      match l.find? fun i => verdict (sector.entry i) == .take with
      | some i => .hit i
      | none => scanSlots verdict sector rest := by
  induction l with
  | nil => rfl
  | cons i l ih =>
      have hrest := ih fun j hj => hl j (List.mem_cons_of_mem _ hj)
      have hi : verdict (sector.entry i) ≠ .stop := by
        rw [Ne, hstop, hl i List.mem_cons_self]
        decide
      rw [List.cons_append, scanSlots, List.find?_cons]
      cases hverdict : verdict (sector.entry i) with
      | stop => exact absurd hverdict hi
      | skip => exact hrest
      | take => rfl

/-- The scan of the records of a sector in front of its end. -/
theorem scanSlots_range_of_end {sector : Sector} {i : ℕ} (hi : i < 16)
    (hend : (sector.entry i).isEnd = true) (hbefore : ∀ j < i, (sector.entry j).isEnd = false) :
    scanSlots verdict sector (List.range 16) =
      match (List.range i).find? fun j => verdict (sector.entry j) == .take with
      | some j => .hit j
      | none => .ended := by
  rw [range_eq_append_cons hi,
    scanSlots_append hstop _ _ fun j hj => hbefore j (List.mem_range.mp hj)]
  have hverdict := (hstop _).mpr hend
  rw [scanSlots, hverdict]

/-- **A search finds the first record of the directory that it takes.** -/
theorem findSlot_of_scan {m : Mount} {dirc : ℕ} {fatBuf : FatBuf} {d : Disk} {s n : ℕ}
    {es : List RawDirEntry} (h : DirScan m dirc fatBuf d s n es) {fuel : ℕ} (hfuel : n < fuel) :
    ∃ result, (findSlot m dirc fatBuf verdict fuel s).Returns d result [] ∧
      result.map Hit.entry = es.find? fun e => verdict e == .take := by
  induction h generalizing fuel with
  | past hread =>
      obtain ⟨fuel, rfl⟩ : ∃ k, fuel = k + 1 := ⟨fuel - 1, by omega⟩
      exact ⟨none, hread.bind_nil rfl, rfl⟩
  | @ended s sector i hread hi hend hbefore =>
      obtain ⟨fuel, rfl⟩ : ∃ k, fuel = k + 1 := ⟨fuel - 1, by omega⟩
      have hscan := scanSlots_range_of_end hstop hi hend hbefore
      rw [List.find?_map]
      simp only [Function.comp_def]
      cases hfind : (List.range i).find? fun j => verdict (sector.entry j) == .take with
      | none =>
          rw [hfind] at hscan
          refine ⟨none, hread.bind_nil ?_, rfl⟩
          simp only [hscan]
          rfl
      | some j =>
          rw [hfind] at hscan
          refine ⟨some ⟨s, sector, j⟩, hread.bind_nil ?_, rfl⟩
          simp only [hscan]
          rfl
  | @next s n sector es hread hall _ ih =>
      obtain ⟨fuel, rfl⟩ : ∃ k, fuel = k + 1 := ⟨fuel - 1, by omega⟩
      have hused : ∀ j ∈ List.range 16, (sector.entry j).isEnd = false :=
        fun j hj => hall j (List.mem_range.mp hj)
      have hscan := scanSlots_append hstop (List.range 16) [] hused
      rw [List.append_nil] at hscan
      rw [List.find?_append, List.find?_map]
      simp only [Function.comp_def]
      cases hfind : (List.range 16).find? fun j => verdict (sector.entry j) == .take with
      | none =>
          rw [hfind] at hscan
          obtain ⟨result, hreturns, hresult⟩ := ih (show n < fuel by omega)
          refine ⟨result, hread.bind_nil ?_, hresult⟩
          simp only [hscan, scanSlots]
          exact hreturns
      | some j =>
          rw [hfind] at hscan
          refine ⟨some ⟨s, sector, j⟩, hread.bind_nil ?_, rfl⟩
          simp only [hscan]
          rfl

end Search

/-! ## The listing -/

/-- The records `fat_list` reports, of those before the end. -/
def RawDirEntry.listed (e : RawDirEntry) : Bool :=
  !e.isDeleted && !e.isLabel && !e.startsWithDot

/-- One record before the end: it is reported, or passed over. -/
theorem listSlots_cons {max : ℤ} {sector : Sector} {i : ℕ} (rest : List ℕ)
    (hi : (sector.entry i).isEnd = false) {entries : List Fat12Entry}
    (hmax : entries.length < max) :
    listSlots max sector (i :: rest) entries = listSlots max sector rest
      (if (sector.entry i).listed then entries ++ [(sector.entry i).report] else entries) := by
  rw [listSlots, if_pos hmax]
  unfold RawDirEntry.listed
  cases hdel : (sector.entry i).isDeleted <;> cases hlabel : (sector.entry i).isLabel <;>
    cases hdot : (sector.entry i).startsWithDot <;> simp [hi, hdel, hlabel, hdot]

/-- The inner loop of `fat_list` over records before the end, with room left. -/
theorem listSlots_append {max : ℤ} {sector : Sector} (l rest : List ℕ)
    (hl : ∀ i ∈ l, (sector.entry i).isEnd = false) (entries : List Fat12Entry)
    (hroom : (entries.length + ((l.map sector.entry).filter (·.listed)).length : ℤ) < max) :
    listSlots max sector (l ++ rest) entries = listSlots max sector rest
      (entries ++ ((l.map sector.entry).filter (·.listed)).map (·.report)) := by
  induction l generalizing entries with
  | nil => simp
  | cons i l ih =>
      have hi := hl i List.mem_cons_self
      have hrest := ih fun j hj => hl j (List.mem_cons_of_mem _ hj)
      rw [List.map_cons, List.filter_cons] at hroom ⊢
      rw [List.cons_append, listSlots_cons _ hi (by omega)]
      by_cases hlisted : (sector.entry i).listed = true
      · rw [if_pos hlisted, List.length_cons] at hroom
        rw [if_pos hlisted, if_pos hlisted, hrest, List.map_cons, List.append_assoc]
        · rfl
        · rw [List.length_append, List.length_singleton]
          push_cast at hroom ⊢
          omega
      · rw [if_neg hlisted] at hroom
        rw [if_neg hlisted, if_neg hlisted, hrest entries hroom]

/-- **The listing is the listed records of the directory, in order.** -/
theorem listSectors_of_scan {m : Mount} {dirc : ℕ} {fatBuf : FatBuf} {d : Disk} {s n : ℕ}
    {es : List RawDirEntry} (h : DirScan m dirc fatBuf d s n es) {fuel : ℕ} (hfuel : n < fuel)
    (max : ℤ) (entries : List Fat12Entry)
    (hroom : (entries.length + (es.filter (·.listed)).length : ℤ) < max) :
    (listSectors m dirc fatBuf max fuel s entries).Returns d
      (entries ++ (es.filter (·.listed)).map (·.report)) [] := by
  induction h generalizing fuel entries with
  | past hread =>
      obtain ⟨fuel, rfl⟩ : ∃ k, fuel = k + 1 := ⟨fuel - 1, by omega⟩
      rw [listSectors, if_pos (by omega), List.filter_nil, List.map_nil, List.append_nil]
      exact hread.bind_nil rfl
  | @ended s sector i hread hi hend hbefore =>
      obtain ⟨fuel, rfl⟩ : ∃ k, fuel = k + 1 := ⟨fuel - 1, by omega⟩
      have hlist := listSlots_append (List.range i) (i :: List.range' (i + 1) (15 - i))
        (fun j hj => hbefore j (List.mem_range.mp hj)) entries hroom
      rw [← range_eq_append_cons hi, listSlots, if_pos (by
        rw [List.length_append, List.length_map]
        push_cast
        exact hroom)] at hlist
      simp only [hend, if_true] at hlist
      rw [listSectors, if_pos (by omega)]
      refine hread.bind_nil ?_
      simp only [hlist]
      rfl
  | @next s n sector es hread hall _ ih =>
      obtain ⟨fuel, rfl⟩ : ∃ k, fuel = k + 1 := ⟨fuel - 1, by omega⟩
      rw [List.filter_append, List.length_append] at hroom
      push_cast at hroom
      have hlist : listSlots max sector (List.range 16 ++ []) entries = _ :=
        listSlots_append (List.range 16) [] (fun j hj => hall j (List.mem_range.mp hj)) entries
          (by omega)
      rw [List.append_nil, listSlots] at hlist
      have hrest := ih (show n < fuel by omega)
        (entries ++ (((List.range 16).map sector.entry).filter (·.listed)).map (·.report)) (by
          rw [List.length_append, List.length_map]
          push_cast
          omega)
      rw [List.append_assoc, ← List.map_append, ← List.filter_append] at hrest
      rw [listSectors, if_pos (by omega)]
      refine hread.bind_nil ?_
      simp only [hlist]
      exact hrest

/-! ## Listing and lookup agree -/

/-- A reported entry is a file of that name, ignoring case. -/
def fileNamed (name : CString) (x : Fat12Entry) : Bool :=
  x.isDir == 0 && kStrcmpNocase x.name name.chars == 0

/-- A reported entry is a directory of that name, ignoring case. -/
def dirNamed (name : CString) (x : Fat12Entry) : Bool :=
  x.isDir == 1 && kStrcmpNocase x.name name.chars == 0

/-- A record that starts with a dot has no name without one. -/
theorem startsWithDot_of_matches {e : RawDirEntry} {name : CString}
    (hname : name.chars.head? ≠ some 0x2E) (hmatches : e.matches name = true) :
    e.startsWithDot = false := by
  by_contra hdot
  have hzero : e.name 0 = 0x2E := by simpa [RawDirEntry.startsWithDot] using hdot
  have hmake : ∃ rest, makeName e.name e.ext = 0x2E :: rest := by
    unfold makeName
    simp only [List.ofFn_succ, hzero]
    split_ifs <;> exact ⟨_, rfl⟩
  obtain ⟨rest, hrest⟩ := hmake
  rw [RawDirEntry.matches_iff, hrest] at hmatches
  cases hchars : name.chars with
  | nil => simp [cstr, hchars] at hmatches
  | cons c cs =>
      rw [hchars] at hmatches hname
      have hhead : kToupper 0x2E = kToupper c := by
        have := congrArg List.head? hmatches
        simpa [cstr] using this
      have hc : c = 0x2E := (kToupper_eq_iff (by decide)).mp (hhead.symm.trans (by decide))
      exact hname (by rw [hc]; rfl)

theorem report_isDir (e : RawDirEntry) :
    (e.report.isDir == 0) = !e.isDir ∧ (e.report.isDir == 1) = e.isDir := by
  cases hdir : e.isDir <;> simp [RawDirEntry.report, hdir]

section Verdicts

variable {name : CString} (hname : name.chars.head? ≠ some 0x2E) {e : RawDirEntry}
  (hend : e.isEnd = false)
include hname hend

/-- A file search takes the records that are listed as files of the name. -/
theorem fileVerdict_eq_listed :
    (fileVerdict name e == .take) = (e.listed && fileNamed name e.report) := by
  have hmatch : (kStrcmpNocase e.report.name name.chars == 0) = e.matches name := rfl
  rw [fileNamed, hmatch, (report_isDir e).1]
  unfold fileVerdict RawDirEntry.listed
  cases hmatches : e.matches name with
  | false => cases e.isDeleted <;> cases e.isLabel <;> cases e.isDir <;> simp [hend]
  | true =>
      rw [startsWithDot_of_matches hname hmatches]
      cases e.isDeleted <;> cases e.isLabel <;> cases e.isDir <;> simp [hend]

/-- A directory search takes the records that are listed as directories of the name. -/
theorem dirVerdict_eq_listed (hflags : ¬ (e.isLabel = true ∧ e.isDir = true)) :
    (dirVerdict name e == .take) = (e.listed && dirNamed name e.report) := by
  have hmatch : (kStrcmpNocase e.report.name name.chars == 0) = e.matches name := rfl
  rw [dirNamed, hmatch, (report_isDir e).2]
  unfold dirVerdict RawDirEntry.listed
  cases hmatches : e.matches name with
  | false => cases e.isDeleted <;> cases e.isDir <;> cases e.startsWithDot <;> simp [hend]
  | true =>
      rw [startsWithDot_of_matches hname hmatches]
      cases hdir : e.isDir with
      | false => cases e.isDeleted <;> simp [hend]
      | true =>
          have hlabel : e.isLabel = false := by
            by_contra hlabel
            exact hflags ⟨by simpa using hlabel, hdir⟩
          rw [hlabel]
          cases e.isDeleted <;> simp [hend]

end Verdicts

/-- The first record of a kind, in the directory and in its listing. -/
theorem find?_listed {es : List RawDirEntry} {p : Fat12Entry → Bool} {q : RawDirEntry → Bool}
    (hq : ∀ e ∈ es, q e = (e.listed && p e.report)) :
    ((es.filter (·.listed)).map (·.report)).find? p = (es.find? q).map (·.report) := by
  have hfind : es.find? q = es.find? fun e => e.listed && p e.report := by
    induction es with
    | nil => rfl
    | cons e es ih =>
        rw [List.find?_cons, List.find?_cons, hq e List.mem_cons_self,
          ih fun e' he' => hq e' (List.mem_cons_of_mem _ he')]
  rw [hfind, List.find?_map, List.find?_filter]
  simp [Bool.decide_and]

theorem fileVerdict_eq_stop_iff (name : CString) (e : RawDirEntry) :
    fileVerdict name e = .stop ↔ e.isEnd = true := by
  unfold fileVerdict
  split_ifs <;> simp_all

theorem dirVerdict_eq_stop_iff (name : CString) (e : RawDirEntry) :
    dirVerdict name e = .stop ↔ e.isEnd = true := by
  unfold dirVerdict
  split_ifs <;> simp_all

/-- The file search that `fat_read` begins with. -/
def readSearch (fuel : ℕ) (st : Driver) (name : CString) : FatProg (Option Hit × Driver) :=
  withFat st .read none fun fatBuf => do
    let found ← findSlot st.mount st.currentDirCluster fatBuf (fileVerdict name) fuel 0
    .ret (found, st.keepBuf .read fatBuf)

/-- What `fat_read` does with the record it found: nothing to read, or the file's chain. -/
def readFound (fuel : ℕ) (st : Driver) (buf : ℕ → UInt8) (bufSize : ℕ) :
    Option Hit → FatProg ((ℤ × (ℕ → UInt8)) × Driver)
  | none => .ret ((-1, buf), st)
  | some hit =>
      if hit.entry.firstCluster.toNat < 2 ∨ hit.entry.fileSize.toNat = 0 then .ret ((0, buf), st)
      else do
        match ← readChain st.mount (st.fatBuf .read) hit.entry.fileSize.toNat bufSize fuel
            hit.entry.firstCluster.toNat 0 buf with
        | (none, buf) => .ret ((-1, buf), st)
        | (some bytesRead, buf) => .ret ((int32 bytesRead, buf), st)

/-- `fat_read` is its file search, and then the reading of the record found. -/
theorem fatRead_eq_readSearch (fuel : ℕ) (st : Driver) (name : CString) (buf : ℕ → UInt8)
    (bufSize : ℕ) : fatRead fuel st name buf bufSize =
      readSearch fuel st name >>= fun r => readFound fuel r.2 buf bufSize r.1 := by
  unfold fatRead readSearch withFat
  by_cases hmounted : st.mount.initialized = true
  · rw [if_pos hmounted, if_pos hmounted, bind_assoc]
    congr 1
    funext r
    by_cases hr : r.1 ≠ 0
    · simp only [if_pos hr, ret_bind]
      rfl
    · simp only [if_neg hr, bind_assoc, ret_bind]
      rfl
  · rw [if_neg hmounted, if_neg hmounted]
    rfl

/-- What a listing and the lookups of one name should have in common. -/
def ListingAgrees (fuel : ℕ) (st : Driver) (d : Disk) (max : ℤ) (name : CString) : Prop :=
  ∃ entries listState found readState,
    (fatList fuel st max).Returns d ((entries.length, entries), listState) [] ∧
    (readSearch fuel st name).Returns d (found, readState) [] ∧
    -- the file search finds the first file of the name that is listed, or neither is there
    found.map (fun hit => hit.entry.report) = entries.find? (fileNamed name) ∧
    ((∃ cdState, (fatCd fuel st name).Returns d (0, cdState) []) ↔
      ∃ x ∈ entries, dirNamed name x = true) ∧
    ∀ cdState, (fatCd fuel st name).Returns d (0, cdState) [] →
      ∃ x, entries.find? (dirNamed name) = some x ∧
        cdState.currentDirCluster = x.firstCluster.toNat

/-- The path with this record's name behind it, and a terminator, fits `current_path`. -/
def PathFits (st : Driver) (e : RawDirEntry) : Prop :=
  (cdPath st.currentPath (cstr (makeName e.name e.ext))).length < 256

instance (st : Driver) (e : RawDirEntry) : Decidable (PathFits st e) := by
  unfold PathFits
  infer_instance

section Agreement

variable {st : Driver} {d : Disk} {n : ℕ} {es : List RawDirEntry} {fuel : ℕ}
  (hmounted : st.mount.initialized = true) (hfuel : n < fuel)

include hmounted hfuel

/-- `fat_cd` over a directory whose scan ends. -/
theorem fatCd_exec_of_scan {name : CString} (hname : name.chars.head? ≠ some 0x2E)
    (hscan : DirScan st.mount st.currentDirCluster
      (loadedTable st.mount d (st.fatBuf .cd)) d 0 n es) :
    match es.find? fun e => dirVerdict name e == .take with
    | none => ∃ st', (fatCd fuel st name).Returns d (-1, st') []
    | some e => (PathFits st e → ∃ st', (fatCd fuel st name).Returns d (0, st') [] ∧
        st'.currentDirCluster = e.firstCluster.toNat) ∧
      (¬ PathFits st e → (fatCd fuel st name).exec d = (.error .outOfBounds, [])) := by
  obtain ⟨result, hreturns, hresult⟩ := findSlot_of_scan (dirVerdict_eq_stop_iff name) hscan hfuel
  have hup : ¬ (st.mount.initialized && name.chars == [0x2E, 0x2E]) = true := by
    intro hup
    rw [Bool.and_eq_true, beq_iff_eq] at hup
    exact hname (by rw [hup.2]; rfl)
  rw [← hresult]
  cases result with
  | none =>
      refine ⟨st.keepBuf .cd (loadedTable st.mount d (st.fatBuf .cd)), ?_⟩
      rw [Returns, fatCd, if_neg hup, withFat_exec_of_mounted hmounted]
      exact hreturns.bind_nil rfl
  | some hit =>
      constructor
      · intro hfits
        refine ⟨{ st.keepBuf .cd (loadedTable st.mount d (st.fatBuf .cd)) with
          currentDirCluster := hit.entry.firstCluster.toNat
          currentPath := cdPath st.currentPath (cstr (makeName hit.entry.name hit.entry.ext)) },
          ?_, rfl⟩
        rw [Returns, fatCd, if_neg hup, withFat_exec_of_mounted hmounted]
        exact hreturns.bind_nil (congrArg (exec · d) (if_pos hfits))
      · intro hfits
        rw [fatCd, if_neg hup, withFat_exec_of_mounted hmounted, hreturns.exec_bind]
        dsimp only
        rw [if_neg (show ¬ (cdPath _ _).length < 256 from hfits)]
        rfl

/-- The file search of `fat_read` over a directory whose scan ends. -/
theorem readSearch_of_scan (name : CString)
    (hscan : DirScan st.mount st.currentDirCluster
      (loadedTable st.mount d (st.fatBuf .read)) d 0 n es) :
    ∃ found st', (readSearch fuel st name).Returns d (found, st') [] ∧
      found.map Hit.entry = es.find? fun e => fileVerdict name e == .take := by
  obtain ⟨result, hreturns, hresult⟩ :=
    findSlot_of_scan (fileVerdict_eq_stop_iff name) hscan hfuel
  refine ⟨result, st.keepBuf .read (loadedTable st.mount d (st.fatBuf .read)), ?_, hresult⟩
  rw [Returns, readSearch, withFat_exec_of_mounted hmounted]
  exact hreturns.bind_nil rfl

/-- `fat_list` over a directory whose scan ends. -/
theorem fatList_of_scan (max : ℤ) (hmax : ((es.filter (·.listed)).length : ℤ) < max)
    (hscan : DirScan st.mount st.currentDirCluster
      (loadedTable st.mount d (st.fatBuf .list)) d 0 n es) :
    ∃ st', (fatList fuel st max).Returns d
      ((((es.filter (·.listed)).map (·.report)).length,
        (es.filter (·.listed)).map (·.report)), st') [] := by
  have hreturns := listSectors_of_scan hscan hfuel max []
    (by rw [List.length_nil]; push_cast; omega)
  refine ⟨st.keepBuf .list (loadedTable st.mount d (st.fatBuf .list)), ?_⟩
  rw [Returns, fatList, withFat_exec_of_mounted hmounted]
  exact hreturns.bind_nil rfl

/-- **Listing and lookup agree**, exactly when `fat_cd` has room for the name of the
directory it finds. The file search agrees with the listing in any case. -/
theorem listingAgrees_iff (htails : st.SameTails) {max : ℤ} {name : CString}
    (hname : name.chars.head? ≠ some 0x2E)
    (hscan : DirScan st.mount st.currentDirCluster
      (loadedTable st.mount d (st.fatBuf .list)) d 0 n es)
    (hflags : ∀ e ∈ es, ¬ (e.isLabel = true ∧ e.isDir = true))
    (hmax : ((es.filter (·.live)).length : ℤ) < max) :
    ListingAgrees fuel st d max name ↔
      ∀ e, (es.find? fun e => dirVerdict name e == .take) = some e → PathFits st e := by
  obtain ⟨hread, hcd⟩ := htails.loadedTable_eq d
  have hends := hscan.isEnd_eq_false
  have hlisted : (es.filter (·.listed)).length ≤ (es.filter (·.live)).length := by
    rw [← List.countP_eq_length_filter, ← List.countP_eq_length_filter]
    apply List.countP_mono_left
    intro e he hlisted
    unfold RawDirEntry.listed at hlisted
    unfold RawDirEntry.live
    cases hdot : e.startsWithDot <;> simp_all
  obtain ⟨listState, hlist⟩ := fatList_of_scan hmounted hfuel max (by omega) hscan
  obtain ⟨found, readState, hsearch, hfound⟩ :=
    readSearch_of_scan hmounted hfuel name (by rw [hread]; exact hscan)
  have hcdRun := fatCd_exec_of_scan hmounted hfuel hname (by rw [hcd]; exact hscan)
  have hfile := find?_listed fun e he => fileVerdict_eq_listed hname (hends e he)
  have hdir := find?_listed fun e he => dirVerdict_eq_listed hname (hends e he) (hflags e he)
  have hlistedAs (e : RawDirEntry)
      (he : (es.find? fun e => dirVerdict name e == .take) = some e) :
      ∃ x ∈ (es.filter (·.listed)).map (·.report), dirNamed name x = true := by
    rw [he, Option.map_some] at hdir
    exact ⟨e.report, List.mem_of_find?_eq_some hdir, List.find?_some hdir⟩
  constructor
  · rintro ⟨entries, listState', found', readState', hlist', -, -, hiff, -⟩ e he
    by_contra hfits
    obtain ⟨heq, -⟩ := hlist.unique hlist'
    injection heq with heq
    injection heq with hlen hentries
    subst hentries
    obtain ⟨cdState, hreturns⟩ := hiff.mpr (hlistedAs e he)
    rw [he] at hcdRun
    rw [Returns, hcdRun.2 hfits] at hreturns
    injection hreturns with hfault
    injection hfault
  · intro hfits
    refine ⟨_, listState, found, readState, hlist, hsearch, ?_, ?_, ?_⟩
    · rw [hfile, ← hfound, Option.map_map]
      rfl
    · cases hfind : es.find? fun e => dirVerdict name e == .take with
      | none =>
          rw [hfind] at hcdRun
          obtain ⟨st', hreturns⟩ := hcdRun
          constructor
          · rintro ⟨cdState, hsuccess⟩
            obtain ⟨heq, -⟩ := hreturns.unique hsuccess
            injection heq with hcode
            exact absurd hcode (by decide)
          · rintro ⟨x, hx, hnamed⟩
            rw [hfind, Option.map_none, List.find?_eq_none] at hdir
            exact absurd hnamed (hdir x hx)
      | some e =>
          rw [hfind] at hcdRun
          obtain ⟨st', hreturns, -⟩ := hcdRun.1 (hfits e hfind)
          exact ⟨fun _ => hlistedAs e hfind, fun _ => ⟨st', hreturns⟩⟩
    · intro cdState hsuccess
      cases hfind : es.find? fun e => dirVerdict name e == .take with
      | none =>
          rw [hfind] at hcdRun
          obtain ⟨st', hreturns⟩ := hcdRun
          obtain ⟨heq, -⟩ := hreturns.unique hsuccess
          injection heq with hcode
          exact absurd hcode (by decide)
      | some e =>
          rw [hfind] at hcdRun hdir
          obtain ⟨st', hreturns, hcluster⟩ := hcdRun.1 (hfits e hfind)
          obtain ⟨heq, -⟩ := hreturns.unique hsuccess
          injection heq with hcode hstate
          exact ⟨e.report, hdir, hstate ▸ hcluster⟩

end Agreement

/-! ## A directory that contains itself -/

/-- A sector with one record: the directory `A` in cluster 2. -/
def loopSector : Sector := (Sector.ofBytes fun _ => 0).setEntry 0 (newEntry nameA 0x10 2 0)

/-- The root holds the directory `A`, and `A` holds itself. -/
def loopDisk : Disk := fun lba => if lba = 2 ∨ lba = 3 then loopSector else .ofBytes fun _ => 0

/-- The driver in `A`, after `k` calls of `fat_cd("A")` from the root. -/
def loopDriver (k : ℕ) : Driver :=
  { freshDriver smallMount with
    currentDirCluster := 2
    currentPath := (List.replicate k [0x2F, 0x41]).flatten }

theorem sameTails_loopDriver (k : ℕ) : (loopDriver k).SameTails := fun _ _ => ⟨rfl, rfl⟩

theorem entry_loopSector :
    (loopSector.entry 0).isEnd = false ∧ (loopSector.entry 0).isLabel = false ∧
      (loopSector.entry 1).isEnd = true := by decide +kernel

theorem dirScan_loopDisk (fatBuf : FatBuf) :
    DirScan smallMount 2 fatBuf loopDisk 0 0 [loopSector.entry 0] := by
  obtain ⟨hfirst, -, hend⟩ := entry_loopSector
  have hlba : smallMount.clusterLba 2 0 = 3 := by decide
  have hread : (readDirSector smallMount 2 fatBuf 0).Returns loopDisk (.ok loopSector) [] := by
    rw [readDirSector, if_neg (by decide), if_neg (by decide), Nat.zero_div, Nat.zero_mod]
    simp only [walkDir, ret_bind, show 2 % 2 ^ 16 = 2 from rfl, hlba]
    exact (ataRead_returns (by decide)).bind_nil rfl
  refine .ended hread (show 1 < 16 by decide) hend fun j hj => ?_
  obtain rfl : j = 0 := by omega
  exact hfirst

/-- The scan of `A`: it ends behind one record, which is no volume label. -/
theorem scan_loopDisk : ∃ es, DirScan smallMount 2
    (loadedTable smallMount loopDisk ((loopDriver 127).fatBuf .list)) loopDisk 0 0 es ∧
    (∀ e ∈ es, ¬ (e.isLabel = true ∧ e.isDir = true)) ∧ ((es.filter (·.live)).length : ℤ) < 64 := by
  refine ⟨_, dirScan_loopDisk _, fun e he => ?_, by decide +kernel⟩
  rw [List.mem_singleton.mp he, entry_loopSector.2.1]
  exact fun h => absurd h.1 (by decide)

/-- From `A`, with 127 levels on the path, `A` is listed and `fat_cd("A")` runs off the
path. -/
theorem not_listingAgrees_loopDisk :
    (loopDriver 127).SameTails ∧ nameA.chars.head? ≠ some 0x2E ∧
    (∃ es, DirScan smallMount 2
      (loadedTable smallMount loopDisk ((loopDriver 127).fatBuf .list)) loopDisk 0 0 es ∧
      (∀ e ∈ es, ¬ (e.isLabel = true ∧ e.isDir = true)) ∧
      ((es.filter (·.live)).length : ℤ) < 64) ∧
    ¬ ListingAgrees 4 (loopDriver 127) loopDisk 64 nameA := by
  refine ⟨sameTails_loopDriver 127, by decide, scan_loopDisk, ?_⟩
  rintro ⟨entries, listState, found, readState, hlist, -, -, hiff, -⟩
  have hentries : ((fatList 4 (loopDriver 127) 64).exec loopDisk).1.map (fun r => r.1.2) =
      .ok [(loopSector.entry 0).report] := by decide +kernel
  have hnamed : dirNamed nameA (loopSector.entry 0).report = true := by decide +kernel
  have hcd : ((fatCd 4 (loopDriver 127) nameA).exec loopDisk).1.map Prod.fst =
      .error .outOfBounds := by decide +kernel
  rw [show (fatList 4 (loopDriver 127) 64).exec loopDisk = _ from hlist] at hentries
  injection hentries with hentries
  have hmem : (loopSector.entry 0).report ∈ entries := by
    rw [show entries = _ from hentries]
    exact List.mem_singleton_self _
  obtain ⟨cdState, hreturns⟩ := hiff.mpr ⟨_, hmem, hnamed⟩
  rw [show (fatCd 4 (loopDriver 127) nameA).exec loopDisk = _ from hreturns] at hcd
  injection hcd

/-- One level down, the listing of `A` and `fat_cd("A")` agree. -/
theorem listingAgrees_loopDisk : ListingAgrees 4 (loopDriver 1) loopDisk 64 nameA := by
  refine (listingAgrees_iff rfl (by decide) (sameTails_loopDriver 1) (by decide)
    (dirScan_loopDisk _) ?_ (by decide +kernel)).mpr fun e he => ?_
  · intro e he
    rw [List.mem_singleton.mp he, entry_loopSector.2.1]
    exact fun h => absurd h.1 (by decide)
  · obtain rfl := List.mem_singleton.mp (List.mem_of_find?_eq_some he)
    decide +kernel

end MasterOS.Fat
