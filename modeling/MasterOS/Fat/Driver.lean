/-
# The FAT driver

The operations of the driver as programs over the disk. Each takes the driver's
statics and returns its result together with the statics it leaves. What C leaves
undefined ends the program with a fault, and so does a loop that outruns the
`fuel` it is given; every loop of the source that has no bound of its own spends
one unit of fuel per round.

The operations share three pieces that the source repeats in each of them: the
prologue that loads the table, the search of the current directory for a slot,
and the write of the changed directory sector. They are one definition each here,
and an operation is those pieces applied to its own test and its own record.
-/

import MasterOS.Device.Program
import MasterOS.Fat.Names
import MasterOS.Fat.Table

namespace MasterOS.Fat

open MasterOS.Device

/-- Why a program stops without a result. -/
inductive Fault
  | outOfFuel
  | outOfBounds
  | divideByZero
  deriving DecidableEq

/-- A program over the disk. -/
abbrev FatProg (α : Type) : Type := Prog ℕ Sector Fault α

/-- The functions that own a `static uint8_t fat_buf[18 * 512]`. -/
inductive Owner
  | list | read | delete | rename | write | mkdir | cd | rmdir
  deriving DecidableEq

/-- The driver's statics. Sector buffers are left out: every use of one is
preceded by a read that fills it. -/
structure Driver where
  mount : Mount
  currentDirCluster : ℕ
  currentPath : List UInt8
  fatBuf : Owner → FatBuf

/-- Leave a function's static table buffer with the given content. -/
def Driver.keepBuf (st : Driver) (owner : Owner) (fatBuf : FatBuf) : Driver :=
  { st with fatBuf := Function.update st.fatBuf owner fatBuf }

@[simp]
theorem Driver.keepBuf_mount (st : Driver) (owner : Owner) (fatBuf : FatBuf) :
    (st.keepBuf owner fatBuf).mount = st.mount := rfl

@[simp]
theorem Driver.keepBuf_currentDirCluster (st : Driver) (owner : Owner) (fatBuf : FatBuf) :
    (st.keepBuf owner fatBuf).currentDirCluster = st.currentDirCluster := rfl

@[simp]
theorem Driver.keepBuf_currentPath (st : Driver) (owner : Owner) (fatBuf : FatBuf) :
    (st.keepBuf owner fatBuf).currentPath = st.currentPath := rfl

/-- `a - b` on `uint32_t`. -/
def sub32 (a b : ℕ) : ℕ := (a + 2 ^ 32 - b) % 2 ^ 32

/-- The value of a `uint32_t` as an `int`. -/
def int32 (n : ℕ) : ℤ := if n % 2 ^ 32 < 2 ^ 31 then n % 2 ^ 32 else n % 2 ^ 32 - 2 ^ 32

/-- The value of a size below `2 ^ 31` as an `int`. -/
theorem int32_of_lt {n : ℕ} (h : n < 2 ^ 31) : int32 n = n := by
  have hmod : n % 2 ^ 32 = n := Nat.mod_eq_of_lt (by omega)
  rw [int32, hmod, if_pos h]
  omega

/-! ## Device and table access -/

/-- `ata_read(lba, 1, buf)`. The drive is given the low 28 bits of the address. -/
def ataRead (lba : ℕ) : FatProg (Option Sector) := .read (lba % 2 ^ 28) .ret

/-- `ata_write(lba, 1, buf)`. -/
def ataWrite (lba : ℕ) (sector : Sector) : FatProg ℤ :=
  .write (lba % 2 ^ 28) sector fun ok => .ret (if ok then 0 else -1)

/-- The two bytes of an entry lie in `fat_buf[18 * 512]`. -/
def InBuf (cluster : ℕ) : Prop := cluster + cluster / 2 + 1 < 18 * 512

instance (cluster : ℕ) : Decidable (InBuf cluster) := by unfold InBuf; infer_instance

/-- `fat_next_cluster` as it is called: reading past the array is a fault. -/
def loadEntry (fatBuf : FatBuf) (cluster : ℕ) : FatProg ℕ :=
  if InBuf cluster then .ret (fatNextCluster fatBuf cluster) else .stop .outOfBounds

/-- `fat_find_free_cluster` as it is called. The scan reads the entries from 2 up
to the one it returns, or to the last one when it returns 0. -/
def findFreeCluster (fatBuf : FatBuf) (totalClusters : ℕ) : FatProg ℕ :=
  let c := fatFindFreeCluster fatBuf totalClusters
  if InBuf (if c = 0 then totalClusters + 1 else c) then .ret c else .stop .outOfBounds

/-- Copy a sector into `fat_buf + s * 512`. -/
def loadSector (fatBuf : FatBuf) (s : ℕ) (sector : Sector) : FatBuf := fun o =>
  if 512 * s ≤ o ∧ o < 512 * s + 512 then sector.byte (o - 512 * s) else fatBuf o

/-- The sector at `fat_buf + s * 512`. -/
def fatSector (fatBuf : FatBuf) (s : ℕ) : Sector := .ofBytes fun k => fatBuf (512 * s + k)

/-- `load_fat`, with `left` sectors still to load from sector `s` on. -/
def loadFat (m : Mount) : (left s : ℕ) → FatBuf → FatProg (ℤ × FatBuf)
  | 0, _, fatBuf => .ret (0, fatBuf)
  | left + 1, s, fatBuf => do
      match ← ataRead ((m.fatStart + s) % 2 ^ 32) with
      | none => .ret (-1, fatBuf)
      | some sector => loadFat m left (s + 1) (loadSector fatBuf s sector)

/-- The inner loop of `write_fat`: one copy of the table. -/
def writeFatCopy (fatBuf : FatBuf) (start : ℕ) : (left s : ℕ) → FatProg ℤ
  | 0, _ => .ret 0
  | left + 1, s => do
      let r ← ataWrite ((start + s) % 2 ^ 32) (fatSector fatBuf s)
      if r ≠ 0 then .ret (-1) else writeFatCopy fatBuf start left (s + 1)

/-- The outer loop of `write_fat`, with `left` copies still to write. -/
def writeFatCopies (m : Mount) (fatBuf : FatBuf) : (left f : ℕ) → FatProg ℤ
  | 0, _ => .ret 0
  | left + 1, f => do
      let r ← writeFatCopy fatBuf (m.fatStart + f * m.bpb.sectorsPerFat.toNat) m.fatSecs 0
      if r ≠ 0 then .ret (-1) else writeFatCopies m fatBuf left (f + 1)

/-- `write_fat`. -/
def writeFat (m : Mount) (fatBuf : FatBuf) : FatProg ℤ :=
  writeFatCopies m fatBuf m.bpb.fatCount.toNat 0

/-! ## Directory sectors -/

/-- Follow a directory's chain for `n` links; a link out of the data clusters ends
the directory. -/
def walkDir (fatBuf : FatBuf) : (n cluster : ℕ) → FatProg (Option ℕ)
  | 0, cluster => .ret (some cluster)
  | n + 1, cluster => do
      let next ← loadEntry fatBuf cluster
      if next < 2 ∨ 0xFF8 ≤ next then .ret none else walkDir fatBuf n next

/-- `read_dir_sector`: sector `s` of a directory, or the code 1 past its end and
-1 when the disk fails. -/
def readDirSector (m : Mount) (dirCluster : ℕ) (fatBuf : FatBuf) (s : ℕ) :
    FatProg (Except ℤ Sector) :=
  let fetch (lba : ℕ) : FatProg (Except ℤ Sector) := do
    match ← ataRead lba with
    | none => .ret (.error (-1))
    | some sector => .ret (.ok sector)
  if dirCluster = 0 then
    if m.rootSectors ≤ s then .ret (.error 1) else fetch ((m.rootStart + s) % 2 ^ 32)
  else if m.spc = 0 then .stop .divideByZero
  else do
    match ← walkDir fatBuf (s / m.spc) (dirCluster % 2 ^ 16) with
    | none => .ret (.error 1)
    | some cluster => fetch (m.clusterLba cluster (s % m.spc))

/-- Follow a directory's chain for `n` links without looking at the links, as the
operations do before they write a directory sector back. -/
def walkBack (fatBuf : FatBuf) : (n cluster : ℕ) → FatProg ℕ
  | 0, cluster => .ret cluster
  | n + 1, cluster => do walkBack fatBuf n (← loadEntry fatBuf cluster)

/-- Write sector `s` of the current directory back. -/
def writeDirSector (m : Mount) (dirCluster : ℕ) (fatBuf : FatBuf) (s : ℕ) (sector : Sector) :
    FatProg ℤ :=
  if dirCluster = 0 then ataWrite ((m.rootStart + s) % 2 ^ 32) sector
  else if m.spc = 0 then .stop .divideByZero
  else do
    let cluster ← walkBack fatBuf (s / m.spc) (dirCluster % 2 ^ 16)
    ataWrite (m.clusterLba cluster (s % m.spc)) sector

/-- What an operation does at one slot: go on, end the search, or take the slot. -/
inductive Verdict
  | skip | stop | take
  deriving DecidableEq

/-- The test of `fat_read`, `fat_delete` and `fat_rename`: a file of that name. -/
def fileVerdict (name : CString) (e : RawDirEntry) : Verdict :=
  if e.isEnd then .stop
  else if e.isDeleted || e.isLabel || e.isDir then .skip
  else if e.matches name then .take
  else .skip

/-- The test of `fat_cd` and `fat_rmdir`: a directory of that name. -/
def dirVerdict (name : CString) (e : RawDirEntry) : Verdict :=
  if e.isEnd then .stop
  else if e.isDeleted || !e.isDir || e.startsWithDot then .skip
  else if e.matches name then .take
  else .skip

/-- The test of `fat_write` and `fat_mkdir`: a slot that may be overwritten. -/
def freeVerdict (e : RawDirEntry) : Verdict :=
  if e.isEnd || e.isDeleted then .take else .skip

/-- The outcome of scanning the slots of one sector. -/
inductive Scan
  | nothing | ended | hit (i : ℕ)
  deriving DecidableEq

/-- Scan slots of a sector in the given order. -/
def scanSlots (verdict : RawDirEntry → Verdict) (sector : Sector) : List ℕ → Scan
  | [] => .nothing
  | i :: rest =>
      match verdict (sector.entry i) with
      | .skip => scanSlots verdict sector rest
      | .stop => .ended
      | .take => .hit i

/-- A slot that was found: the sector's index in the directory, its content, and
the slot's index in the sector. -/
structure Hit where
  s : ℕ
  sector : Sector
  i : ℕ

/-- The record in the slot found. -/
def Hit.entry (hit : Hit) : RawDirEntry := hit.sector.entry hit.i

/-- The search loop: scan the directory from sector `s` on. -/
def findSlot (m : Mount) (dirCluster : ℕ) (fatBuf : FatBuf) (verdict : RawDirEntry → Verdict) :
    (fuel s : ℕ) → FatProg (Option Hit)
  | 0, _ => .stop .outOfFuel
  | fuel + 1, s => do
      match ← readDirSector m dirCluster fatBuf s with
      | .error _ => .ret none
      | .ok sector =>
          match scanSlots verdict sector (List.range 16) with
          | .nothing => findSlot m dirCluster fatBuf verdict fuel ((s + 1) % 2 ^ 32)
          | .ended => .ret none
          | .hit i => .ret (some ⟨s, sector, i⟩)

/-- The prologue of the operations: fail before `fat_init`, load the table, fail
when that fails. -/
def withFat {α : Type} (st : Driver) (owner : Owner) (failed : α)
    (body : FatBuf → FatProg (α × Driver)) : FatProg (α × Driver) :=
  if st.mount.initialized then do
    let (r, fatBuf) ← loadFat st.mount st.mount.fatSecs 0 (st.fatBuf owner)
    if r ≠ 0 then .ret (failed, st.keepBuf owner fatBuf) else body fatBuf
  else .ret (failed, st)

/-! ## Mounting -/

/-- `fat_init`. -/
def fatInit (st : Driver) : FatProg (ℤ × Driver) := do
  match ← ataRead 0 with
  | none => .ret (-1, st)
  | some sector =>
      let bpb := Bpb.ofSector sector
      if bpb.bytesPerSector.toNat = 0 then .stop .divideByZero
      else .ret (0, { st with mount := mountOf bpb })

/-! ## The size of the volume -/

/-- `fat_get_total_kb`. -/
def fatGetTotalKb (st : Driver) : UInt32 :=
  if st.mount.initialized then
    let bpb := st.mount.bpb
    let total := if bpb.totalSectors16 ≠ 0 then bpb.totalSectors16.toUInt32
      else bpb.totalSectors32
    total * bpb.bytesPerSector.toUInt32 / 1024
  else 0

/-- The inner loop of `fat_get_used_kb` over the slots of one sector: whether it reached the
0x00 slot, and the bytes so far. -/
def usedSlots (sector : Sector) : List ℕ → UInt32 → Bool × UInt32
  | [], used => (false, used)
  | i :: rest, used =>
      let e := sector.entry i
      if e.isEnd then (true, used)
      else if e.isDeleted || e.isLabel then usedSlots sector rest used
      else usedSlots sector rest (used + e.fileSize)

/-- The outer loop of `fat_get_used_kb`, with `left` sectors of the root directory to go. -/
def usedSectors (m : Mount) : (left s : ℕ) → UInt32 → FatProg UInt32
  | 0, _, used => .ret used
  | left + 1, s, used => do
      match ← ataRead ((m.rootStart + s) % 2 ^ 32) with
      | none => .ret 0
      | some sector =>
          match usedSlots sector (List.range 16) used with
          | (true, used) => .ret used
          | (false, used) => usedSectors m left (s + 1) used

/-- `fat_get_used_kb`. -/
def fatGetUsedKb (st : Driver) : FatProg UInt32 :=
  if st.mount.initialized then usedSectors st.mount st.mount.rootSectors 0 0 else .ret 0

/-! ## Listing a directory -/

/-- `Fat12Entry`: what `fat_list` reports of a record. The name is given by the bytes
`make_name` writes before its terminator. -/
structure Fat12Entry where
  name : List UInt8
  size : UInt32
  firstCluster : UInt16
  isDir : UInt8
  deriving DecidableEq

/-- The entry reported for a record. -/
def RawDirEntry.report (e : RawDirEntry) : Fat12Entry where
  name := makeName e.name e.ext
  size := e.fileSize
  firstCluster := e.firstCluster
  isDir := if e.isDir then 1 else 0

/-- The inner loop of `fat_list` over the slots of one sector: whether it reached the
0x00 slot, and the entries so far. `count` is their number. -/
def listSlots (max : ℤ) (sector : Sector) : List ℕ → List Fat12Entry → Bool × List Fat12Entry
  | [], entries => (false, entries)
  | i :: rest, entries =>
      if entries.length < max then
        let e := sector.entry i
        if e.isEnd then (true, entries)
        else if e.isDeleted then listSlots max sector rest entries
        else if e.isLabel then listSlots max sector rest entries
        else if e.startsWithDot then listSlots max sector rest entries
        else listSlots max sector rest (entries ++ [e.report])
      else (false, entries)

/-- The outer loop of `fat_list`, from sector `s` of the directory on. -/
def listSectors (m : Mount) (dirCluster : ℕ) (fatBuf : FatBuf) (max : ℤ) :
    (fuel s : ℕ) → List Fat12Entry → FatProg (List Fat12Entry)
  | 0, _, _ => .stop .outOfFuel
  | fuel + 1, s, entries =>
      if entries.length < max then do
        match ← readDirSector m dirCluster fatBuf s with
        | .error _ => .ret entries
        | .ok sector =>
            match listSlots max sector (List.range 16) entries with
            | (true, entries) => .ret entries
            | (false, entries) => listSectors m dirCluster fatBuf max fuel ((s + 1) % 2 ^ 32) entries
      else .ret entries

/-- `fat_list`: the result and the entries it filled in. Any failure to read a
directory sector ends the listing like the end of the directory. -/
def fatList (fuel : ℕ) (st : Driver) (max : ℤ) : FatProg ((ℤ × List Fat12Entry) × Driver) :=
  withFat st .list (-1, []) fun fatBuf => do
    let entries ← listSectors st.mount st.currentDirCluster fatBuf max fuel 0 []
    .ret ((entries.length, entries), st.keepBuf .list fatBuf)

/-! ## Reading a file -/

/-- The outcome of reading the sectors of one cluster. -/
inductive ReadStep
  | failed (buf : ℕ → UInt8)
  | finished (bytesRead : ℕ) (buf : ℕ → UInt8)
  | more (bytesRead : ℕ) (buf : ℕ → UInt8)

/-- Copy the first `n` bytes of a sector to `buf + off`. -/
def copyOut (buf : ℕ → UInt8) (off n : ℕ) (sector : Sector) : ℕ → UInt8 := fun i =>
  if off ≤ i ∧ i < off + n then sector.byte (i - off) else buf i

/-- The sector loop of `fat_read`. -/
def readSectors (lba fileSize bufSize : ℕ) :
    (left s bytesRead : ℕ) → (ℕ → UInt8) → FatProg ReadStep
  | 0, _, bytesRead, buf => .ret (.more bytesRead buf)
  | left + 1, s, bytesRead, buf => do
      match ← ataRead ((lba + s) % 2 ^ 32) with
      | none => .ret (.failed buf)
      | some sector =>
          let toCopy := if fileSize < (bytesRead + 512) % 2 ^ 32 then sub32 fileSize bytesRead
            else 512
          let toCopy := if bufSize < (bytesRead + toCopy) % 2 ^ 32 then sub32 bufSize bytesRead
            else toCopy
          let buf := copyOut buf bytesRead toCopy sector
          let bytesRead := (bytesRead + toCopy) % 2 ^ 32
          if fileSize ≤ bytesRead ∨ bufSize ≤ bytesRead then .ret (.finished bytesRead buf)
          else readSectors lba fileSize bufSize left (s + 1) bytesRead buf

/-- The cluster loop of `fat_read`: the number of bytes read, or none when the
disk failed, and the caller's buffer. -/
def readChain (m : Mount) (fatBuf : FatBuf) (fileSize bufSize : ℕ) :
    (fuel cluster bytesRead : ℕ) → (ℕ → UInt8) → FatProg (Option ℕ × (ℕ → UInt8))
  | 0, _, _, _ => .stop .outOfFuel
  | fuel + 1, cluster, bytesRead, buf =>
      if 2 ≤ cluster ∧ cluster ≤ 0xFEF then do
        match ← readSectors (m.clusterLba cluster 0) fileSize bufSize m.spc 0 bytesRead buf with
        | .failed buf => .ret (none, buf)
        | .finished bytesRead buf => .ret (some bytesRead, buf)
        | .more bytesRead buf => do
            let next ← loadEntry fatBuf cluster
            if next < 2 then .ret (some bytesRead, buf)
            else readChain m fatBuf fileSize bufSize fuel next bytesRead buf
      else .ret (some bytesRead, buf)

/-- `fat_read`: the result and the caller's buffer. -/
def fatRead (fuel : ℕ) (st : Driver) (name : CString) (buf : ℕ → UInt8) (bufSize : ℕ) :
    FatProg ((ℤ × (ℕ → UInt8)) × Driver) :=
  withFat st .read (-1, buf) fun fatBuf => do
    match ← findSlot st.mount st.currentDirCluster fatBuf (fileVerdict name) fuel 0 with
    | none => .ret ((-1, buf), st.keepBuf .read fatBuf)
    | some hit =>
        let cluster := hit.entry.firstCluster.toNat
        let fileSize := hit.entry.fileSize.toNat
        if cluster < 2 ∨ fileSize = 0 then .ret ((0, buf), st.keepBuf .read fatBuf)
        else do
          match ← readChain st.mount fatBuf fileSize bufSize fuel cluster 0 buf with
          | (none, buf) => .ret ((-1, buf), st.keepBuf .read fatBuf)
          | (some bytesRead, buf) => .ret ((int32 bytesRead, buf), st.keepBuf .read fatBuf)

/-! ## Removing an entry -/

/-- The freeing loop of `fat_delete` and `fat_rmdir`. -/
def freeChain : (fuel : ℕ) → FatBuf → (cluster : ℕ) → FatProg FatBuf
  | 0, _, _ => .stop .outOfFuel
  | fuel + 1, fatBuf, cluster =>
      if 2 ≤ cluster ∧ cluster ≤ 0xFEF then do
        let next ← loadEntry fatBuf cluster
        freeChain fuel (fatSetCluster fatBuf cluster 0x000) next
      else .ret fatBuf

/-- The common body of `fat_delete` and `fat_rmdir`. The result of `write_fat` is
not looked at. -/
def removeEntry (owner : Owner) (verdict : RawDirEntry → Verdict) (fuel : ℕ) (st : Driver) :
    FatProg (ℤ × Driver) :=
  withFat st owner (-1) fun fatBuf => do
    match ← findSlot st.mount st.currentDirCluster fatBuf verdict fuel 0 with
    | none => .ret (-1, st.keepBuf owner fatBuf)
    | some hit => do
        let fatBuf ← freeChain fuel fatBuf hit.entry.firstCluster.toNat
        let _ ← writeFat st.mount fatBuf
        let r ← writeDirSector st.mount st.currentDirCluster fatBuf hit.s
          (hit.sector.setEntry hit.i hit.entry.markDeleted)
        .ret (r, st.keepBuf owner fatBuf)

/-- `fat_delete`. -/
def fatDelete (fuel : ℕ) (st : Driver) (name : CString) : FatProg (ℤ × Driver) :=
  removeEntry .delete (fileVerdict name) fuel st

/-- `fat_rmdir`. -/
def fatRmdir (fuel : ℕ) (st : Driver) (name : CString) : FatProg (ℤ × Driver) :=
  removeEntry .rmdir (dirVerdict name) fuel st

/-! ## Renaming -/

/-- `fat_rename`. -/
def fatRename (fuel : ℕ) (st : Driver) (oldName newName : CString) : FatProg (ℤ × Driver) :=
  let want := split83 newName
  withFat st .rename (-1) fun fatBuf => do
    match ← findSlot st.mount st.currentDirCluster fatBuf (fileVerdict oldName) fuel 0 with
    | none => .ret (-1, st.keepBuf .rename fatBuf)
    | some hit => do
        let r ← writeDirSector st.mount st.currentDirCluster fatBuf hit.s
          (hit.sector.setEntry hit.i { hit.entry with name := want.1, ext := want.2 })
        .ret (r, st.keepBuf .rename fatBuf)

/-! ## Creating files and directories -/

/-- The record that `fat_write` and `fat_mkdir` store; every field is set. -/
def newEntry (name : CString) (attributes : UInt8) (firstCluster fileSize : ℕ) : RawDirEntry where
  name := (split83 name).1
  ext := (split83 name).2
  attributes := attributes
  reserved := fun _ => 0
  time := 0
  date := 0
  firstCluster := UInt16.ofNat firstCluster
  fileSize := UInt32.ofNat fileSize

/-- The last loop of `fat_write` and `fat_mkdir`: put a record in the first slot
that is free, or fail. -/
def placeEntry (m : Mount) (dirCluster : ℕ) (fatBuf : FatBuf) (fuel : ℕ) (e : RawDirEntry) :
    FatProg ℤ := do
  match ← findSlot m dirCluster fatBuf freeVerdict fuel 0 with
  | none => .ret (-1)
  | some hit => writeDirSector m dirCluster fatBuf hit.s (hit.sector.setEntry hit.i e)

/-- The sector loop of `fat_write`: the bytes still to write after one cluster, or
none when the disk failed. -/
def writeSectors (data : ℕ → UInt8) (lba : ℕ) :
    (left sct bytesLeft offset : ℕ) → FatProg (Option ℕ)
  | 0, _, bytesLeft, _ => .ret (some bytesLeft)
  | left + 1, sct, bytesLeft, offset => do
      let toCopy := if bytesLeft < 512 then bytesLeft else 512
      let buf := Sector.ofBytes fun k => if k < toCopy then data (offset + k) else 0
      let r ← ataWrite ((lba + sct) % 2 ^ 32) buf
      if r ≠ 0 then .ret none
      else if bytesLeft - toCopy = 0 then .ret (some 0)
      else writeSectors data lba left (sct + 1) (bytesLeft - toCopy) (offset + toCopy)

/-- What the allocation loop of `fat_write` leaves: whether it ran to its end, its
variables, and, for reference, the clusters taken from the search in order. -/
structure Allocation where
  complete : Bool
  firstCluster : ℕ
  fatBuf : FatBuf
  taken : List ℕ

/-- The allocation loop of `fat_write`. -/
def writeClusters (m : Mount) (totalClusters : ℕ) (data : ℕ → UInt8) (size : ℕ) :
    (fuel bytesLeft firstCluster prevCluster : ℕ) → FatBuf → List ℕ → FatProg Allocation
  | 0, _, _, _, _, _ => .stop .outOfFuel
  | fuel + 1, bytesLeft, firstCluster, prevCluster, fatBuf, taken =>
      if bytesLeft = 0 then .ret ⟨true, firstCluster, fatBuf, taken⟩
      else do
        let cluster ← findFreeCluster fatBuf totalClusters
        if cluster = 0 then .ret ⟨false, firstCluster, fatBuf, taken⟩
        else do
          let firstCluster := if firstCluster = 0 then cluster else firstCluster
          let fatBuf := if prevCluster ≠ 0 then fatSetCluster fatBuf prevCluster cluster
            else fatBuf
          let fatBuf := fatSetCluster fatBuf cluster 0xFFF
          match ← writeSectors data (m.clusterLba cluster 0) m.spc 0 bytesLeft
              (size - bytesLeft) with
          | none => .ret ⟨false, firstCluster, fatBuf, taken ++ [cluster]⟩
          | some bytesLeft =>
              writeClusters m totalClusters data size fuel bytesLeft firstCluster cluster fatBuf
                (taken ++ [cluster])

/-- `total_clusters = (fat_secs * 512 * 2) / 3`. -/
def Mount.totalClusters (m : Mount) : ℕ := m.fatSecs * 512 * 2 / 3

/-- The part of `fat_write` behind its `fat_delete`, with the clusters it took from
`fat_find_free_cluster`. -/
def storeFile (fuel : ℕ) (st : Driver) (name : CString) (data : ℕ → UInt8) (size : ℕ) :
    FatProg ((ℤ × List ℕ) × Driver) :=
  withFat st .write (-1, []) fun fatBuf => do
    let alloc ← writeClusters st.mount st.mount.totalClusters data size fuel size 0 0 fatBuf []
    let st := st.keepBuf .write alloc.fatBuf
    if alloc.complete then do
      let r ← writeFat st.mount alloc.fatBuf
      if r ≠ 0 then .ret ((-1, alloc.taken), st)
      else do
        let r ← placeEntry st.mount st.currentDirCluster alloc.fatBuf fuel
          (newEntry name 0x00 alloc.firstCluster size)
        .ret ((r, alloc.taken), st)
    else .ret ((-1, alloc.taken), st)

/-- `fat_write`, with the clusters it took from `fat_find_free_cluster`. The
result of the `fat_delete` it starts with is not looked at. -/
def fatWriteTaken (fuel : ℕ) (st : Driver) (name : CString) (data : ℕ → UInt8) (size : ℕ) :
    FatProg ((ℤ × List ℕ) × Driver) :=
  if st.mount.initialized then do
    let (_, st) ← fatDelete fuel st name
    storeFile fuel st name data size
  else .ret ((-1, []), st)

/-- `fat_write`. -/
def fatWrite (fuel : ℕ) (st : Driver) (name : CString) (data : ℕ → UInt8) (size : ℕ) :
    FatProg (ℤ × Driver) := do
  let ((r, _), st) ← fatWriteTaken fuel st name data size
  .ret (r, st)

/-- A dot record of a new directory. -/
def dotEntry (dots firstCluster : ℕ) : RawDirEntry where
  name k := if k.val < dots then 0x2E else 0x20
  ext _ := 0x20
  attributes := 0x10
  reserved _ := 0
  time := 0
  date := 0
  firstCluster := UInt16.ofNat firstCluster
  fileSize := 0

/-- `cluster_buf`: the first sector of a new directory. -/
def newDirSector (newCluster parent : ℕ) : Sector :=
  ((Sector.ofBytes fun _ => 0).setEntry 0 (dotEntry 1 newCluster)).setEntry 1 (dotEntry 2 parent)

/-- `fat_mkdir`, with the clusters it took from `fat_find_free_cluster`. -/
def fatMkdirTaken (fuel : ℕ) (st : Driver) (name : CString) :
    FatProg ((ℤ × List ℕ) × Driver) :=
  withFat st .mkdir (-1, []) fun fatBuf => do
    let newCluster ← findFreeCluster fatBuf st.mount.totalClusters
    if newCluster = 0 then .ret ((-1, []), st.keepBuf .mkdir fatBuf)
    else do
      let fatBuf := fatSetCluster fatBuf newCluster 0xFFF
      let st := st.keepBuf .mkdir fatBuf
      let r ← writeFat st.mount fatBuf
      if r ≠ 0 then .ret ((-1, [newCluster]), st)
      else do
        let r ← ataWrite (st.mount.clusterLba newCluster 0)
          (newDirSector newCluster st.currentDirCluster)
        if r ≠ 0 then .ret ((-1, [newCluster]), st)
        else do
          let r ← placeEntry st.mount st.currentDirCluster fatBuf fuel
            (newEntry name 0x10 newCluster 0)
          .ret ((r, [newCluster]), st)

/-- `fat_mkdir`. -/
def fatMkdir (fuel : ℕ) (st : Driver) (name : CString) : FatProg (ℤ × Driver) := do
  let ((r, _), st) ← fatMkdirTaken fuel st name
  .ret (r, st)

/-! ## Changing the directory -/

/-- The path `fat_cd` goes on with: a name behind `/`, or behind the path so far. -/
def cdPath (currentPath entryName : List UInt8) : List UInt8 :=
  if currentPath.length ≤ 1 then 0x2F :: entryName else currentPath ++ 0x2F :: entryName

/-- `fat_cd`. A path that would not fit `current_path[256]` with its terminator is
written past the array. -/
def fatCd (fuel : ℕ) (st : Driver) (name : CString) : FatProg (ℤ × Driver) :=
  if st.mount.initialized && name.chars == [0x2E, 0x2E] then
    .ret (0, { st with currentDirCluster := 0, currentPath := [0x2F] })
  else withFat st .cd (-1) fun fatBuf => do
    match ← findSlot st.mount st.currentDirCluster fatBuf (dirVerdict name) fuel 0 with
    | none => .ret (-1, st.keepBuf .cd fatBuf)
    | some hit =>
        let path := cdPath st.currentPath (cstr (makeName hit.entry.name hit.entry.ext))
        if path.length < 256 then
          .ret (0, { st.keepBuf .cd fatBuf with
            currentDirCluster := hit.entry.firstCluster.toNat, currentPath := path })
        else .stop .outOfBounds

end MasterOS.Fat
