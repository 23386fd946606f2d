/-
# Whole files

`copy` and `run` read a file into a buffer of their own and go on with the number of bytes
that the read reports. It reports a clipped read in the same way as a complete one, so a
file larger than the buffer is copied, or called, in part. `exec_run` maps as many pages as
the bytes take: none for an empty file, which it calls all the same.
-/

import MasterOS.Console.Commands
import MasterOS.Fat.Contents
import MasterOS.Memory.Loader

namespace MasterOS.Console

open MasterOS.Device MasterOS.Device.Prog MasterOS.Memory
open MasterOS.Fat (CString Mount Driver Disk Sector FatProg Op fatRead fatWrite Agrees Contains
  Ready Valid83 cstr mountOf freshDriver smallMount blank fileDisk nameA nameB
  loopBound)

/-! ## The code -/

/-- `sizeof(file_buf)`. -/
def fileBufSize : ℕ := 32 * 1024

/-- The string that starts at a pointer. -/
def cString (chars : List UInt8) : CString where
  chars := cstr chars
  noNul _ hb := by simpa using (List.mem_takeWhile_imp hb)

/-- What `cmd_copy` reports. -/
inductive CopyReport
  | usage
  | notFound (srcName : List UInt8)
  | copied (srcName dstName : List UInt8) (bytes : ℕ)
  | failed
  deriving DecidableEq

/-- The text of the report. -/
def CopyReport.print (s : Shell) : CopyReport → Shell
  | .usage => s.say "Usage: copy <source> <destination>\r\n"
  | .notFound srcName => ((s.say "Source not found: ").print srcName).say "\r\n"
  | .copied srcName dstName bytes =>
      let s := (((s.say "Copied ").print srcName).say " to ").print dstName
      ((s.say " (").printUint bytes).say " bytes)\r\n"
  | .failed => s.say "Copy failed (disk full or error).\r\n"

/-- The two names that `cmd_copy` takes from its argument. -/
def copyNames (stack : Chars) : Option (List UInt8) → Outcome (Option (List UInt8 × List UInt8))
  | none => .ok none
  | some arg => do
      let srcName ← kFirstWord .srcName arg stack 32
      match kArg arg with
      | none => .ok none
      | some dstName => do
          let srcName ← readString .srcName srcName
          .ok (some (srcName, dstName))

/-- `cmd_copy` once it has its names. -/
def copyFile (fuel : ℕ) (st : Driver) (fileBuf : ℕ → UInt8) (srcName dstName : List UInt8) :
    FatProg (CopyReport × Driver) := do
  let ((bytes, fileBuf), st) ← fatRead fuel st (cString srcName) fileBuf fileBufSize
  if bytes < 0 then .ret (.notFound srcName, st)
  else do
    let (code, st) ← fatWrite fuel st (cString dstName) fileBuf bytes.toNat
    .ret (if code = 0 then .copied srcName dstName bytes.toNat else .failed, st)

/-- `cmd_copy` on a drive. -/
def cmdCopyOn (fuel : ℕ) (st : Driver) (stack : Chars) (fileBuf : ℕ → UInt8)
    (arg : Option (List UInt8)) : FatProg (Outcome CopyReport × Driver) :=
  match copyNames stack arg with
  | .error why => .ret (.error why, st)
  | .ok none => .ret (.ok .usage, st)
  | .ok (some (srcName, dstName)) => do
      let (report, st) ← copyFile fuel st fileBuf srcName dstName
      .ret (.ok report, st)

/-- How `exec_run` ends: it finds no file, or faults on the way, or calls the program. -/
inductive ExecEnd
  | notFound
  | pageFault
  | control (m : Paging)

/-- `exec_run` up to the call of the program. -/
def execRun (fuel : ℕ) (st : Driver) (m : Paging) (programBuf : ℕ → UInt8) (filename : CString) :
    FatProg (ExecEnd × Driver) := do
  let ((size, programBuf), st) ← fatRead fuel st filename programBuf maxProgramSize
  if size < 0 then .ret (.notFound, st)
  else .ret ((loadProgram m programBuf size.toNat).elim .pageFault .control, st)

/-! ## The shell's copy -/

/-- What the shell reports for two answers of the drive. -/
def copyAnswer (srcName dstName : List UInt8) (bytes code : ℤ) : CopyReport :=
  if bytes < 0 then .notFound srcName
  else if code = 0 then .copied srcName dstName bytes.toNat
  else .failed

/-- The shell's `copy` prints the report for the answers it gets. -/
theorem cmdCopy_eq (w : World) (arg : Option (List UInt8)) (s : Shell) : cmdCopy w arg s =
    (copyNames w.stack arg).map fun names => (names.elim .usage fun pair =>
      copyAnswer pair.1 pair.2 (w.fatRead pair.1).1 (w.fatWrite pair.2)).print s := by
  cases arg with
  | none => rfl
  | some arg =>
      rw [cmdCopy, copyNames]
      cases kFirstWord .srcName arg w.stack 32 with
      | error why => rfl
      | ok a =>
          rw [Outcome.ok_bind, Outcome.ok_bind]
          cases kArg arg with
          | none => rfl
          | some dstName =>
              dsimp only
              cases readString .srcName a with
              | error why => rfl
              | ok srcName =>
                  rw [Outcome.ok_bind, Outcome.ok_bind]
                  simp only [Except.map, Option.elim, copyAnswer]
                  split_ifs <;> rfl

/-- The copy on the drive reports the same for the answers that the drive gives. -/
theorem copyFile_returns {fuel : ℕ} {st st' : Driver} {d : Disk} {fileBuf : ℕ → UInt8}
    {srcName dstName : List UInt8} {report : CopyReport} {writes : List (ℕ × Sector)}
    (h : (copyFile fuel st fileBuf srcName dstName).Returns d (report, st') writes) :
    ∃ bytes out st₁ first, (fatRead fuel st (cString srcName) fileBuf fileBufSize).Returns d
        ((bytes, out), st₁) first ∧
      (bytes < 0 ∧ report = .notFound srcName ∨ 0 ≤ bytes ∧ ∃ code second,
        (fatWrite fuel st₁ (cString dstName) out bytes.toNat).Returns (applyWrites first d)
          (code, st') second ∧ writes = first ++ second ∧
        report = copyAnswer srcName dstName bytes code) := by
  obtain ⟨⟨⟨bytes, out⟩, st₁⟩, first, rest, hread, hrest, rfl⟩ := returns_bind_iff.mp h
  refine ⟨bytes, out, st₁, first, hread, ?_⟩
  dsimp only at hrest
  by_cases hneg : bytes < 0
  · rw [if_pos hneg] at hrest
    injection hrest with hvalue
    injection hvalue with hvalue
    exact Or.inl ⟨hneg, (Prod.mk.inj hvalue).1.symm⟩
  · rw [if_neg hneg] at hrest
    obtain ⟨⟨code, st₂⟩, second, last, hwrite, hlast, rfl⟩ := returns_bind_iff.mp hrest
    injection hlast with hvalue hnone
    injection hvalue with hvalue
    obtain ⟨hreport, rfl⟩ := Prod.mk.inj hvalue
    refine Or.inr ⟨not_lt.mp hneg, code, second, hwrite, ?_, ?_⟩
    · rw [← hnone, List.append_nil]
    · rw [← hreport, copyAnswer, if_neg hneg]

/-! ## Names on the command line -/

theorem cString_chars (name : CString) : cString name.chars = name := by
  obtain ⟨chars, hnoNul⟩ := name
  rw [cString, CString.mk.injEq, cstr]
  exact List.takeWhile_eq_self_iff.mpr fun b hb => by simpa using hnoNul b hb

theorem kArg_append {word : List UInt8} (hword : ∀ c ∈ word, c ≠ 0x20) {rest : List UInt8}
    (hrest : rest ≠ []) : kArg (word ++ 0x20 :: rest) = some rest := by
  induction word with
  | nil => rw [List.nil_append, kArg, if_pos rfl, if_neg hrest]
  | cons c word ih =>
      rw [List.cons_append, kArg, if_neg (hword c List.mem_cons_self)]
      exact ih fun c hc => hword c (List.mem_cons_of_mem _ hc)

/-- Two valid names behind a `copy` come through as they are. -/
theorem copyNames_valid (stack : Chars) {src dst : CString} (hsrc : Valid83 src)
    (hdst : Valid83 dst) : copyNames stack (some (src.chars ++ 0x20 :: dst.chars)) =
      .ok (some (src.chars, dst.chars)) := by
  obtain ⟨hstorable, hfits⟩ := hsrc.fits
  have hspace := hstorable.noSpace
  have hne : dst.chars ≠ [] := by
    obtain ⟨base, ext, hchars, hpos, -⟩ := hdst
    intro hnil
    rw [hnil] at hchars
    rw [(List.append_eq_nil_iff.mp hchars.symm).1] at hpos
    exact absurd hpos (by decide)
  have hnoNul : ∀ c ∈ src.chars ++ 0x20 :: dst.chars, c ≠ 0 := by
    intro c hc
    rcases List.mem_append.mp hc with hc | hc
    · exact src.noNul c hc
    · rcases List.mem_cons.mp hc with rfl | hc
      · decide
      · exact dst.noNul c hc
  have hlength : src.chars.length ≤ 31 := by
    unfold Fat.Fits83 at hfits
    omega
  have hcut : cutWord (src.chars ++ 0x20 :: dst.chars) 31 = src.chars := by
    rw [cutWord, List.takeWhile_append_of_pos fun c hc => by simpa using hspace c hc,
      List.takeWhile_cons_of_neg (by simp), List.append_nil, List.take_of_length_le hlength]
  obtain ⟨a, hword, -, hread⟩ := @kFirstWord_gives .srcName _ stack rfl hnoNul
  rw [hcut] at hread
  rw [copyNames, hword, Outcome.ok_bind, kArg_append hspace hne]
  dsimp only
  rw [hread, Outcome.ok_bind]

/-! ## What arrives -/

section File

variable {st st' : Driver} {d : Disk} (hready : Ready st d) {name : CString} {size fuel : ℕ}
  {data : ℕ → UInt8} (hfile : Contains st.mount d st.currentDirCluster name size data)
  {writes : List (ℕ × Sector)}
include hready hfile

/-- A copy that reports success has written the part of the file that its buffer takes. -/
theorem copy_writes (hname : Valid83 name) {dst : CString} (hdst : Valid83 dst) {stack : Chars}
    {fileBuf : ℕ → UInt8} {srcName dstName : List UInt8} {bytes : ℕ}
    (h : (cmdCopyOn fuel st stack fileBuf (some (name.chars ++ 0x20 :: dst.chars))).Returns d
      (.ok (.copied srcName dstName bytes), st') writes) :
    ∃ fatBuf out, Agrees data out (min size fileBufSize) ∧
      (fatWrite fuel (st.keepBuf .read fatBuf) dst out (min size fileBufSize)).Returns d (0, st')
        writes := by
  rw [cmdCopyOn, copyNames_valid stack hname hdst] at h
  obtain ⟨⟨report, st₂⟩, first, rest, hcopy, hrest, rfl⟩ := returns_bind_iff.mp h
  injection hrest with hvalue hnone
  injection hvalue with hvalue
  obtain ⟨hreport, rfl⟩ := Prod.mk.inj hvalue
  injection hreport with hreport
  obtain ⟨n, out, st₁, before, hread, hcases⟩ := copyFile_returns hcopy
  rw [cString_chars] at hread
  obtain ⟨rfl, hout, ⟨fatBuf, rfl⟩, rfl⟩ := hfile.read hready (by decide) hread
  rcases hcases with ⟨hneg, -⟩ | ⟨-, code, second, hwrite, rfl, hanswer⟩
  · exact absurd hneg (by omega)
  · rw [cString_chars, Int.toNat_natCast] at hwrite
    rw [hreport, copyAnswer, if_neg (by omega)] at hanswer
    have hcode : code = 0 := by
      by_contra hne
      rw [if_neg hne] at hanswer
      exact absurd hanswer (by simp)
    subst hcode hnone
    refine ⟨fatBuf, out, hout, ?_⟩
    rw [List.append_nil]
    exact hwrite

/-- `exec_run` that calls the program has loaded the part of the file that its buffer takes. -/
theorem execRun_loads {m m' : Paging} {programBuf : ℕ → UInt8}
    (h : (execRun fuel st m programBuf name).Returns d (.control m', st') writes) :
    ∃ out, Agrees data out (min size maxProgramSize) ∧
      loadProgram m out (min size maxProgramSize) = some m' := by
  obtain ⟨⟨⟨n, out⟩, st₁⟩, first, rest, hread, hrest, -⟩ := returns_bind_iff.mp h
  obtain ⟨rfl, hout, -, rfl⟩ := hfile.read hready (by decide) hread
  dsimp only at hrest
  rw [if_neg (by omega), Int.toNat_natCast] at hrest
  injection hrest with hvalue
  injection hvalue with hvalue
  refine ⟨out, hout, ?_⟩
  cases hload : loadProgram m out (min size maxProgramSize) with
  | none =>
      rw [hload] at hvalue
      exact absurd (Prod.mk.inj hvalue).1 (by simp)
  | some loaded =>
      rw [hload] at hvalue
      exact congrArg some (ExecEnd.control.inj (Prod.mk.inj hvalue).1)

/-- `exec_run` calls the program that its name finds, whatever its size. -/
theorem exists_execRun {m : Paging} (hmemory : ProgramMemory m) (hfuel : loopBound < fuel)
    (programBuf : ℕ → UInt8) : ∃ m' st',
      (execRun fuel st m programBuf name).Returns d (.control m', st') [] := by
  obtain ⟨out, -, hread⟩ := Fat.fatRead_contains hready.sound.valid.usable
    (hready.sound.dirOk hready.cwd) hfile (show maxProgramSize < 2 ^ 31 by decide) hfuel programBuf
  obtain ⟨m', hload, -⟩ :=
    hmemory.table.loadProgram_spec out (Nat.min_le_right size maxProgramSize)
  refine ⟨m', st.keepBuf .read (Fat.loaded st.mount d (st.fatBuf .read)), ?_⟩
  rw [execRun]
  refine hread.bind_nil ?_
  dsimp only
  rw [if_neg (by omega), Int.toNat_natCast, hload]
  rfl

/-- **When whole files arrive.** A copy that reports success is a copy of the file when the
file fits the buffer of the shell and the write finds clusters that the driver follows; it
has to fit for that, and with a table of 12-bit entries of the usual size, at most twelve
sectors, the clusters have to be found too. A program that is called stands in memory whole,
on a mapped page, exactly when the file fits the buffer of `exec_run` and, for an empty file,
the page was mapped before. -/
theorem wholeFiles_iff :
    (∀ fuel stack fileBuf dst srcName dstName bytes st' writes, Valid83 name → Valid83 dst →
      (cmdCopyOn fuel st stack fileBuf (some (name.chars ++ 0x20 :: dst.chars))).Returns d
        (.ok (.copied srcName dstName bytes), st') writes →
      (size ≤ fileBufSize ∧ (Op.write dst data size).Regular ⟨st, d⟩ →
        Contains st.mount (applyWrites writes d) st.currentDirCluster dst size data) ∧
      (Contains st.mount (applyWrites writes d) st.currentDirCluster dst size data →
        size ≤ fileBufSize ∧
          (st.mount.fatSecs ≤ 12 → (Op.write dst data size).Regular ⟨st, d⟩))) ∧
    ∀ fuel m programBuf m' st' writes, ProgramMemory m →
      (execRun fuel st m programBuf name).Returns d (.control m', st') writes →
      (LoadMapped m' ∧ Placed m' size data ↔
        size ≤ maxProgramSize ∧ (size = 0 → LoadMapped m)) := by
  constructor
  · intro fuel stack fileBuf dst srcName dstName bytes st' writes hname hdst h
    obtain ⟨fatBuf, out, hout, hwrite⟩ := copy_writes hready hfile hname hdst h
    have hready' : Ready (st.keepBuf .read fatBuf) d := Fat.ready_keepBuf_iff.mpr hready
    have hsize := hfile.size_lt
    constructor
    · rintro ⟨hle, hregular⟩
      rw [Nat.min_eq_left hle] at hout hwrite
      have hwhole := Fat.fatWrite_contains hready' hdst hsize hwrite hregular
      exact hwhole.congr fun i hi => (hout i hi).symm
    · intro hwhole
      have hlt : min size fileBufSize < 2 ^ 32 := by omega
      have hsame := Fat.fatWrite_size hready' hdst hlt hwrite hwhole
      rw [← hsame] at hwrite
      exact ⟨by omega, fun hsecs => Fat.fatWrite_regular hready' hdst hsize hwrite hsecs hwhole⟩
  · intro fuel m programBuf m' st' writes hmemory h
    obtain ⟨out, hout, hload⟩ := execRun_loads hready hfile h
    exact hmemory.table.placed_iff hout hload

end File

/-- Memory as `kmain` leaves it: programs find no page of theirs mapped. -/
theorem exists_programMemory : ∃ m, ProgramMemory m ∧ ¬ LoadMapped m := by
  obtain ⟨m, hboot, -, hnone⟩ :=
    exists_kmainMemory (show 0x100 ≤ 0x110 ∧ 0x110 < 0x200 by decide) (fun _ _ => 0) 0x3C00
  exact ⟨m, .boot (by decide) (by decide) hboot, hnone⟩

theorem contains_fileDisk : Contains smallMount fileDisk 0 nameA 1 fun _ => 7 := by
  obtain ⟨st', hstore⟩ := Fat.storeA_returns
  exact Fat.fatWrite_contains (Fat.ready_blank Fat.valid_smallMount) Fat.valid83_nameA (by decide)
    hstore Fat.regular_write_blank

/-- The file of one byte is copied whole, and called with its byte in place. -/
theorem wholeFiles_iff_fileDisk :
    (∃ st' writes, (cmdCopyOn 4 (freshDriver smallMount) (fun _ => 0) (fun _ => 0)
        (some [0x41, 0x20, 0x42])).Returns fileDisk (.ok (.copied [0x41] [0x42] 1), st') writes ∧
      Contains smallMount (applyWrites writes fileDisk) 0 nameB 1 fun _ => 7) ∧
    ∃ m m' st', ProgramMemory m ∧ (execRun (loopBound + 1) (freshDriver smallMount) m (fun _ => 0)
        nameA).Returns fileDisk (.control m', st') [] ∧ LoadMapped m' ∧ Placed m' 1 fun _ => 7 := by
  obtain ⟨hcopy, hexec⟩ := wholeFiles_iff Fat.ready_fileDisk contains_fileDisk
  constructor
  · have hcopied : ((cmdCopyOn 4 (freshDriver smallMount) (fun _ => 0) (fun _ => 0)
        (some [0x41, 0x20, 0x42])).exec fileDisk).1.map Prod.fst =
          .ok (.ok (.copied [0x41] [0x42] 1)) := by decide +kernel
    obtain ⟨st', h⟩ := Fat.returns_of_exec hcopied
    refine ⟨st', _, h, (hcopy _ _ _ nameB _ _ _ _ _ Fat.valid83_nameA Fat.valid83_nameB h).1
      ⟨by decide, Fat.Fits.regular (by decide) Fat.fits_nameB⟩⟩
  · obtain ⟨m, hmemory, -⟩ := exists_programMemory
    obtain ⟨m', st', h⟩ := exists_execRun Fat.ready_fileDisk contains_fileDisk hmemory
      (Nat.lt_succ_self loopBound) fun _ => 0
    exact ⟨m, m', st', hmemory, h, (hexec _ _ _ _ _ _ hmemory h).mpr
      ⟨by decide, fun hzero => absurd hzero (by decide)⟩⟩

/-! ## Files that do not arrive whole -/

/-- One reserved sector, one table of one sector, a root directory of one sector, and 64
sectors to a cluster. -/
def clusterMount : Mount := mountOf
  { bytesPerSector := 512, sectorsPerCluster := 64, reservedSectors := 1, fatCount := 1,
    rootEntryCount := 16, totalSectors16 := 342, sectorsPerFat := 1, totalSectors32 := 0 }

theorem valid_clusterMount : clusterMount.Valid where
  mounted := rfl
  bytesPerSector := rfl
  spc_pos := by decide
  fatCount_pos := by decide
  reserved_pos := by decide

/-- The call that stores a file under the name `A` on a blank volume of that geometry. -/
def storeCluster (size : ℕ) : FatProg (ℤ × Driver) :=
  fatWrite 4 (freshDriver clusterMount) nameA (fun _ => 7) size

/-- The disk that call leaves. -/
def storedDisk (size : ℕ) : Disk := applyWrites ((storeCluster size).exec blank).2 blank

/-- A file that fits two clusters is stored there. -/
theorem storedDisk_spec {size : ℕ} (hsize : size ≤ 65536)
    (hstored : ((storeCluster size).exec blank).1.map Prod.fst = .ok 0) :
    Ready (freshDriver clusterMount) (storedDisk size) ∧
      Contains clusterMount (storedDisk size) 0 nameA size fun _ => 7 := by
  have hready := Fat.ready_blank valid_clusterMount
  have hfits : Fat.Fits clusterMount blank 0 nameA (Fat.clustersFor clusterMount size) := by
    refine Fat.fits_blank [2, 3] (by decide) (by decide) ?_
    rw [Fat.le_mul_iff_clustersFor_le (by decide)]
    exact hsize
  obtain ⟨st', hstore⟩ := Fat.returns_of_exec hstored
  have hready' := hready.fatWrite (by omega) hfits hstore
  obtain ⟨hmount, hcwd⟩ := Fat.fatWrite_driver hready.sound hready.cwd (by omega) hstore
  refine ⟨⟨hmount ▸ hready'.wellFormed, hcwd ▸ hmount ▸ hready'.cwd⟩, ?_⟩
  exact Fat.fatWrite_contains hready Fat.valid83_nameA (by omega) hstore
    (Fat.Fits.regular (by omega) hfits)

/-- A file of 40000 bytes is copied with success, and its copy is not the file. An empty
program is called at an address that is not mapped. -/
theorem not_wholeFiles :
    (Ready (freshDriver clusterMount) (storedDisk 40000) ∧
      Contains clusterMount (storedDisk 40000) 0 nameA 40000 (fun _ => 7) ∧
      ∃ st' writes, (cmdCopyOn 4 (freshDriver clusterMount) (fun _ => 0) (fun _ => 0)
          (some [0x41, 0x20, 0x42])).Returns (storedDisk 40000)
          (.ok (.copied [0x41] [0x42] 32768), st') writes ∧
        ¬ Contains clusterMount (applyWrites writes (storedDisk 40000)) 0 nameB 40000 fun _ => 7) ∧
    Ready (freshDriver clusterMount) (storedDisk 0) ∧
      Contains clusterMount (storedDisk 0) 0 nameA 0 (fun _ => 7) ∧
      ∃ m m' st', ProgramMemory m ∧ (execRun (loopBound + 1) (freshDriver clusterMount) m
          (fun _ => 0) nameA).Returns (storedDisk 0) (.control m', st') [] ∧ ¬ LoadMapped m' := by
  constructor
  · obtain ⟨hready, hfile⟩ := @storedDisk_spec 40000 (by decide) (by decide +kernel)
    have hcopied : ((cmdCopyOn 4 (freshDriver clusterMount) (fun _ => 0) (fun _ => 0)
        (some [0x41, 0x20, 0x42])).exec (storedDisk 40000)).1.map Prod.fst =
          .ok (.ok (.copied [0x41] [0x42] 32768)) := by decide +kernel
    obtain ⟨st', h⟩ := Fat.returns_of_exec hcopied
    refine ⟨hready, hfile, st', _, h, fun hwhole => ?_⟩
    obtain ⟨fatBuf, out, -, hwrite⟩ :=
      copy_writes hready hfile Fat.valid83_nameA Fat.valid83_nameB h
    have hsame := Fat.fatWrite_size (Fat.ready_keepBuf_iff.mpr hready) Fat.valid83_nameB
      (show min 40000 fileBufSize < 2 ^ 32 by decide) hwrite hwhole
    exact absurd hsame (by decide)
  · obtain ⟨hready, hfile⟩ := @storedDisk_spec 0 (by decide) (by decide +kernel)
    obtain ⟨m, hmemory, hnone⟩ := exists_programMemory
    obtain ⟨m', st', h⟩ := exists_execRun hready hfile hmemory (Nat.lt_succ_self loopBound)
      fun _ => 0
    refine ⟨hready, hfile, m, m', st', hmemory, h, ?_⟩
    obtain ⟨out, -, hload⟩ := execRun_loads hready hfile h
    obtain rfl : m = m' := Option.some.inj hload
    exact hnone

end MasterOS.Console
