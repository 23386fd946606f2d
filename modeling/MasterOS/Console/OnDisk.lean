/-
# The shell on a disk

The commands with the driver behind them. A command makes its calls of the driver, one after
another, and goes on with what they answer. On a volume that stands for a store the shell is
one that asks the store: every line is a run of the store, and what the line prints is what
the shell prints for the answers the store gives.

`run` is left out. A program that is called may do anything.
-/

import MasterOS.Console.WholeFiles
import MasterOS.Fat.Usage

namespace MasterOS.Console

open MasterOS.Device MasterOS.Device.Prog MasterOS.Math
open MasterOS.Fat (CString Driver Disk Sector FatProg Op System Files Stands Served EmptyDirs Lists
  Fat12Entry fatRead fatWrite fatDelete fatRename fatMkdir fatRmdir fatCd fatList fatGetTotalKb
  fatGetUsedKb bytesOf readReply codeReply Contains)

/-! ## The commands, with their calls -/

/-- The two words of an argument, when a command that takes two gets so far. -/
def twoWords (array : CharArray) (stack : Chars) (arg : Option (List UInt8)) :
    Option (List UInt8 × List UInt8) :=
  match arg with
  | none => none
  | some arg =>
      match kFirstWord array arg stack 32 with
      | .error _ => none
      | .ok word =>
          match kArg arg, readString array word with
          | some rest, .ok word => some (word, rest)
          | _, _ => none

/-- A command that makes one call with its argument, and is answered a code. -/
def askOn (command : Command) (answered : World → ℤ → World)
    (call : CString → FatProg (ℤ × Driver)) (w : World) (arg : Option (List UInt8)) (s : Shell)
    (st : Driver) : FatProg (Outcome Shell × Driver) :=
  match arg with
  | none => .ret (command.exec w none s, st)
  | some name => do
      let (r, st) ← call (cString name)
      .ret (command.exec (answered w r) (some name) s, st)

/-- A command that makes one call with the two words of its argument. -/
def askTwoOn (command : Command) (array : CharArray) (answered : World → ℤ → World)
    (call : List UInt8 → List UInt8 → FatProg (ℤ × Driver)) (w : World)
    (arg : Option (List UInt8)) (s : Shell) (st : Driver) : FatProg (Outcome Shell × Driver) :=
  match twoWords array w.stack arg with
  | none => .ret (command.exec w arg s, st)
  | some (word, rest) => do
      let (r, st) ← call word rest
      .ret (command.exec (answered w r) arg s, st)

/-- The entries that `fat_list` has filled in. -/
def entriesOf (entries : List Fat12Entry) (i : ℕ) : Fat12Entry := entries.getD i ⟨[], 0, 0, 0⟩

/-- `fat_list` of `cmd_dir` and `cmd_mfetch`. -/
def listOn (fuel : ℕ) (st : Driver) : FatProg (((ℤ → ℤ × (ℕ → Fat12Entry))) × Driver) := do
  let ((count, entries), st) ← fatList fuel st fatMaxFiles
  .ret (fun _ => (count, entriesOf entries), st)

/-- `cmd_dir` on a drive. -/
def cmdDirOn (fuel : ℕ) (w : World) (s : Shell) (st : Driver) :
    FatProg (Outcome Shell × Driver) := do
  let (listed, st) ← listOn fuel st
  .ret (.ok (cmdDir { w with fatList := listed } s), st)

/-- `cmd_type` on a drive. -/
def cmdTypeOn (fuel : ℕ) (w : World) (fileBuf : ℕ → UInt8) (arg : Option (List UInt8)) (s : Shell)
    (st : Driver) : FatProg (Outcome Shell × Driver) :=
  match arg with
  | none => .ret (.ok (cmdType w none s), st)
  | some name => do
      let (answer, st) ← fatRead fuel st (cString name) fileBuf fileBufSize
      .ret (.ok (cmdType { w with fatRead := fun _ => answer } (some name) s), st)

/-- `cmd_mfetch` on a drive. -/
def cmdMfetchOn (fuel : ℕ) (w : World) (s : Shell) (st : Driver) :
    FatProg (Outcome Shell × Driver) := do
  let used ← fatGetUsedKb st
  let w := { w with fatGetTotalKb := fatGetTotalKb st, fatGetUsedKb := used }
  let (listed, st) ← listOn fuel st
  .ret (.ok (cmdMfetch { w with fatList := listed } s), st)

/-- `cmd_copy` on a drive, with what it prints. -/
def printCopyOn (fuel : ℕ) (w : World) (fileBuf : ℕ → UInt8) (arg : Option (List UInt8))
    (s : Shell) (st : Driver) : FatProg (Outcome Shell × Driver) := do
  let (report, st) ← cmdCopyOn fuel st w.stack fileBuf arg
  .ret (report.map fun report => report.print s, st)

/-- Run a command on a drive. -/
def Command.execOn (command : Command) (fuel : ℕ) (w : World) (fileBuf : ℕ → UInt8)
    (arg : Option (List UInt8)) (s : Shell) (st : Driver) : FatProg (Outcome Shell × Driver) :=
  match command with
  | .dir => cmdDirOn fuel w s st
  | .type => cmdTypeOn fuel w fileBuf arg s st
  | .mfetch => cmdMfetchOn fuel w s st
  | .del => askOn .del (fun w r => { w with fatDelete := fun _ => r }) (fatDelete fuel st) w arg s st
  | .cd => askOn .cd (fun w r => { w with fatCd := fun _ => r }) (fatCd fuel st) w arg s st
  | .mkdir => askOn .mkdir (fun w r => { w with fatMkdir := fun _ => r }) (fatMkdir fuel st) w arg s st
  | .rmdir => askOn .rmdir (fun w r => { w with fatRmdir := fun _ => r }) (fatRmdir fuel st) w arg s st
  | .ren =>
      askTwoOn .ren .oldName (fun w r => { w with fatRename := fun _ _ => r })
        (fun oldName newName => fatRename fuel st (cString oldName) (cString newName)) w arg s st
  | .create =>
      askTwoOn .create .filename (fun w r => { w with fatWrite := fun _ => r })
        (fun filename context =>
          fatWrite fuel st (cString filename) (fun i => context.getD i 0) context.length)
        w arg s st
  | .copy => printCopyOn fuel w fileBuf arg s st
  | command => .ret (command.exec w arg s, st)

/-- `shell_execute` on a drive. -/
def shellExecuteOn (fuel : ℕ) (w : World) (fileBuf : ℕ → UInt8) (cmd : List UInt8) (s : Shell)
    (st : Driver) : FatProg (Outcome Shell × Driver) :=
  if cmd = [] then .ret (.ok s, st)
  else
    match kFirstWord .verb cmd w.stack 32 with
    | .error why => .ret (.error why, st)
    | .ok verb =>
        match findCommand verb with
        | some command => command.execOn fuel w fileBuf (kArg cmd) s st
        | none => .ret (shellExecute w cmd s, st)

/-! ## What a line asks of a store -/

/-- A name as a store has it. -/
def keyOf (name : List UInt8) : List UInt8 := (cString name).key

/-- What `cmd_copy` asks, and is told. -/
def copyAsked (w : World) (srcName dstName : List UInt8) :
    List (Request (List UInt8) UInt8 × Reply UInt8) :=
  let (bytes, fileBuf) := w.fatRead srcName
  (.read (keyOf srcName) fileBufSize, readReply bytes fileBuf) ::
    if bytes < 0 then []
    else [(.write (keyOf dstName) (bytesOf fileBuf bytes.toNat), codeReply (w.fatWrite dstName))]

/-- What a command asks, and is told. -/
def Command.asked (w : World) (command : Command) (arg : Option (List UInt8)) :
    List (Request (List UInt8) UInt8 × Reply UInt8) :=
  match command, arg with
  | .type, some name =>
      [(.read (keyOf name) fileBufSize, readReply (w.fatRead name).1 (w.fatRead name).2)]
  | .del, some name => [(.delete (keyOf name), codeReply (w.fatDelete name))]
  | .cd, some name => [((Op.cd (cString name)).request, codeReply (w.fatCd name))]
  | .mkdir, some name => [(.mkdir (keyOf name), codeReply (w.fatMkdir name))]
  | .rmdir, some name => [(.rmdir (keyOf name), codeReply (w.fatRmdir name))]
  | .ren, arg =>
      ((twoWords .oldName w.stack arg).map fun names =>
        (.rename (keyOf names.1) (keyOf names.2), codeReply (w.fatRename names.1 names.2))).toList
  | .create, arg =>
      ((twoWords .filename w.stack arg).map fun names =>
        (.write (keyOf names.1) names.2, codeReply (w.fatWrite names.1))).toList
  | .copy, arg =>
      match copyNames w.stack arg with
      | .ok (some (srcName, dstName)) => copyAsked w srcName dstName
      | _ => []
  | _, _ => []

/-- The command of a line, if it has one. -/
def lineCommand (w : World) (cmd : List UInt8) : Option Command :=
  if cmd = [] then none
  else (kFirstWord .verb cmd w.stack 32).toOption.bind findCommand

/-- What a line asks, and is told. -/
def lineAsked (w : World) (cmd : List UInt8) :
    List (Request (List UInt8) UInt8 × Reply UInt8) :=
  match lineCommand w cmd with
  | some command => command.asked w (kArg cmd)
  | none => []

/-- What a command is told that asks for more than a store replies: the listing shows the
current directory unless it fills the array, and the bytes used are those of the root. -/
def Command.IsTold (w : World) (F : Files) : Command → Prop
  | .dir => ∃ entries : List Fat12Entry, w.fatList fatMaxFiles = (↑entries.length, entriesOf entries) ∧
      (entries.length < fatMaxFiles → Lists F entries)
  | .mfetch => (∃ entries : List Fat12Entry, (w.fatList fatMaxFiles).1 = entries.length ∧
      (entries.length < fatMaxFiles → Lists F entries)) ∧
      w.fatGetUsedKb = UInt32.ofNat (F.bytes F.root)
  | _ => True

/-- A line of a shell that asks a store. -/
def StoreStep (x : Shell × Files) (cmd : List UInt8) (y : Shell × Files) : Prop :=
  ∃ w, shellExecute w cmd x.1 = .ok y.1 ∧ Trace Store.Step x.2 (lineAsked w cmd) y.2 ∧
    ∀ command, lineCommand w cmd = some command → command.IsTold w x.2

/-! ## A line on a disk -/

/-- A regular call that stores a new, plain name. -/
def Fine (s : System) (op : Op) : Prop := op.Regular s ∧ op.NewName s ∧ op.StoresPlain

/-- A command whose calls are fine. The file that `copy` writes is as long as the one it
reads, as far as its buffer goes. -/
def Command.Fine (s : System) (stack : Chars) (command : Command) (arg : Option (List UInt8)) :
    Prop :=
  match command with
  | .create => ∀ filename context, twoWords .filename stack arg = some (filename, context) →
      Console.Fine s (.write (cString filename) (fun i => context.getD i 0) context.length)
  | .ren => ∀ oldName newName, twoWords .oldName stack arg = some (oldName, newName) →
      Console.Fine s (.rename (cString oldName) (cString newName))
  | .mkdir => ∀ name, arg = some name → Console.Fine s (.mkdir (cString name))
  | .copy => ∀ srcName dstName, copyNames stack arg = .ok (some (srcName, dstName)) →
      ∀ data size, Contains s.driver.mount s.disk s.driver.currentDirCluster (cString srcName)
        size data → Console.Fine s (.write (cString dstName) data (min size fileBufSize))
  | .run => False
  | _ => True

/-- A line on a disk, with fine calls. The shell comes back from it. -/
inductive DiskStep : Shell × System → List UInt8 → Shell × System → Prop
  | line {s s' : Shell} {st st' : Driver} {d : Disk} {fuel : ℕ} {w : World} {fileBuf : ℕ → UInt8}
      {cmd : List UInt8} {writes : List (ℕ × Sector)} :
      (∀ command, lineCommand w cmd = some command →
        command.Fine ⟨st, d⟩ w.stack (kArg cmd)) →
      (shellExecuteOn fuel w fileBuf cmd s st).Returns d (.ok s', st') writes →
      DiskStep (s, ⟨st, d⟩) cmd (s', ⟨st', applyWrites writes d⟩)

theorem bytesOf_getD (l : List UInt8) : bytesOf (fun i => l.getD i 0) l.length = l := by
  refine List.ext_getElem? fun i => ?_
  by_cases hi : i < l.length
  · rw [Fat.getElem?_bytesOf _ hi, List.getD_eq_getElem?_getD, List.getElem?_eq_getElem hi,
      Option.getD_some]
  · rw [List.getElem?_eq_none (by rw [Fat.length_bytesOf]; omega),
      List.getElem?_eq_none (by omega)]

/-- A system that stands for a store, with directories that take nothing. -/
structure Mirrors (s : System) (F : Files) : Prop where
  stands : Stands s F
  empty : EmptyDirs s.driver.mount s.disk

theorem Mirrors.served {s s' : System} {F : Files} (h : Mirrors s F)
    {label : Request (List UInt8) UInt8 × Reply UInt8} (hstep : Served s label s') :
    ∃ F', Store.Step F label F' ∧ Mirrors s' F' := by
  obtain ⟨F', hstore, hF'⟩ := Fat.simulates_store _ _ _ _ h.stands hstep
  exact ⟨F', hstore, hF', h.empty.served h.stands hstep⟩

/-! ## One command -/

/-- A command on a drive goes as in a world that answers like a store. -/
structure Command.Follows (command : Command) (w : World) (arg : Option (List UInt8)) (s : Shell)
    (F : Files) (out : Outcome Shell) (s' : System) (w' : World) (F' : Files) : Prop where
  stack : w'.stack = w.stack
  exec : out = command.exec w' arg s
  trace : Trace Store.Step F (command.asked w' arg) F'
  told : command.IsTold w' F
  mirrors : Mirrors s' F'

section Commands

variable {st st' : Driver} {d : Disk} {F : Files} (h : Mirrors ⟨st, d⟩ F) {fuel : ℕ} {w : World}
  {fileBuf : ℕ → UInt8} {arg : Option (List UInt8)} {s : Shell} {out : Outcome Shell}
  {writes : List (ℕ × Sector)}
include h

/-- A command that asks nothing. -/
theorem Mirrors.quiet {command : Command} (hasked : command.asked w arg = [])
    (htold : command.IsTold w F)
    (hreturns : (.ret (command.exec w arg s, st) : FatProg (Outcome Shell × Driver)).Returns d
      (out, st') writes) :
    command.Follows w arg s F out ⟨st', applyWrites writes d⟩ w F := by
  injection hreturns with hvalue hnone
  injection hvalue with hvalue
  obtain ⟨rfl, rfl⟩ := Prod.mk.inj hvalue
  subst hnone
  refine ⟨rfl, rfl, ?_, htold, h⟩
  rw [hasked]
  exact .nil F

/-- A fine call, and its place in the store. -/
theorem Mirrors.call {op : Op} (hfine : Fine ⟨st, d⟩ op) {r : ℤ}
    (hreturns : (op.run fuel st).Returns d (r, st') writes) :
    ∃ F', Trace Store.Step F [(op.request, codeReply r)] F' ∧
      Mirrors ⟨st', applyWrites writes d⟩ F' := by
  obtain ⟨hregular, hnew, hplain⟩ := hfine
  obtain ⟨F', hstep, hF'⟩ := h.served (.call op hregular hnew hplain hreturns)
  exact ⟨F', .single hstep, hF'⟩

/-- A command with one call. -/
theorem Mirrors.askOn {command : Command} (answered : World → ℤ → World) (op : CString → Op)
    (hstack : ∀ r, (answered w r).stack = w.stack)
    (hnone : arg = none → command.asked w arg = [])
    (hasked : ∀ r name, arg = some name →
      command.asked (answered w r) arg = [((op (cString name)).request, codeReply r)])
    (htold : ∀ w', command.IsTold w' F)
    (hfine : ∀ name, arg = some name → Fine ⟨st, d⟩ (op (cString name)))
    (hreturns : (askOn command answered (fun name => (op name).run fuel st) w arg s st).Returns d
      (out, st') writes) :
    ∃ w' F', command.Follows w arg s F out ⟨st', applyWrites writes d⟩ w' F' := by
  cases arg with
  | none => exact ⟨w, F, h.quiet (hnone rfl) (htold w) hreturns⟩
  | some name =>
      obtain ⟨⟨r, st₁⟩, first, rest, hcall, hrest, rfl⟩ := returns_bind_iff.mp hreturns
      obtain ⟨F', htrace, hF'⟩ := h.call (hfine name rfl) hcall
      injection hrest with hvalue hnil
      injection hvalue with hvalue
      obtain ⟨rfl, rfl⟩ := Prod.mk.inj hvalue
      subst hnil
      rw [List.append_nil]
      exact ⟨answered w r, F', hstack r, rfl, (hasked r name rfl).symm ▸ htrace, htold _, hF'⟩

/-- A command with one call of two words. -/
theorem Mirrors.askTwoOn {command : Command} {array : CharArray} (answered : World → ℤ → World)
    (op : List UInt8 → List UInt8 → Op) (hstack : ∀ r, (answered w r).stack = w.stack)
    (hnone : twoWords array w.stack arg = none → command.asked w arg = [])
    (hasked : ∀ r word rest, twoWords array w.stack arg = some (word, rest) →
      command.asked (answered w r) arg = [((op word rest).request, codeReply r)])
    (htold : ∀ w', command.IsTold w' F)
    (hfine : ∀ word rest, twoWords array w.stack arg = some (word, rest) →
      Fine ⟨st, d⟩ (op word rest))
    (hreturns : (askTwoOn command array answered (fun word rest => (op word rest).run fuel st) w arg
      s st).Returns d (out, st') writes) :
    ∃ w' F', command.Follows w arg s F out ⟨st', applyWrites writes d⟩ w' F' := by
  unfold Console.askTwoOn at hreturns
  cases hwords : twoWords array w.stack arg with
  | none =>
      rw [hwords] at hreturns
      exact ⟨w, F, h.quiet (hnone hwords) (htold w) hreturns⟩
  | some words =>
      obtain ⟨word, rest⟩ := words
      rw [hwords] at hreturns
      obtain ⟨⟨r, st₁⟩, first, last, hcall, hrest, rfl⟩ := returns_bind_iff.mp hreturns
      obtain ⟨F', htrace, hF'⟩ := h.call (hfine word rest hwords) hcall
      injection hrest with hvalue hnil
      injection hvalue with hvalue
      obtain ⟨rfl, rfl⟩ := Prod.mk.inj hvalue
      subst hnil
      rw [List.append_nil]
      exact ⟨answered w r, F', hstack r, rfl, (hasked r word rest hwords).symm ▸ htrace, htold _,
        hF'⟩

/-- A copy reads, and writes what it read. -/
theorem Mirrors.copyFile {srcName dstName : List UInt8} {report : CopyReport}
    (hfine : ∀ data size, Contains st.mount d st.currentDirCluster (cString srcName) size data →
      Fine ⟨st, d⟩ (.write (cString dstName) data (min size fileBufSize)))
    (hreturns : (copyFile fuel st fileBuf srcName dstName).Returns d (report, st') writes) :
    ∃ answer code F', report = copyAnswer srcName dstName answer.1 code ∧
      Trace Store.Step F (copyAsked { w with fatRead := fun _ => answer, fatWrite := fun _ => code }
        srcName dstName) F' ∧ Mirrors ⟨st', applyWrites writes d⟩ F' := by
  obtain ⟨⟨⟨bytes, out⟩, st₁⟩, first, rest, hread, hrest, rfl⟩ := returns_bind_iff.mp hreturns
  obtain ⟨⟨fatBuf, rfl⟩, rfl, -, hcases⟩ := h.stands.read (by decide) hread
  obtain ⟨F₁, hstep, hF₁⟩ := h.served (.read (cString srcName) (by decide) hread)
  dsimp only at hrest
  by_cases hneg : bytes < 0
  · rw [if_pos hneg] at hrest
    injection hrest with hvalue hnil
    injection hvalue with hvalue
    obtain ⟨rfl, rfl⟩ := Prod.mk.inj hvalue
    subst hnil
    refine ⟨(bytes, out), 0, F₁, by rw [copyAnswer, if_pos hneg], ?_, hF₁⟩
    rw [copyAsked]
    dsimp only
    rw [if_pos hneg]
    exact .single hstep
  · rw [if_neg hneg] at hrest
    obtain ⟨⟨code, st₂⟩, second, last, hwrite, hlast, rfl⟩ := returns_bind_iff.mp hrest
    injection hlast with hvalue hnil
    injection hvalue with hvalue
    obtain ⟨rfl, rfl⟩ := Prod.mk.inj hvalue
    subst hnil
    rcases hcases with ⟨content, hcontent, hreply⟩ | ⟨-, hreply⟩
    · rw [readReply, if_neg hneg] at hreply
      have hlen : bytes.toNat = min content.length fileBufSize := by
        have hsame := congrArg List.length (Reply.content.inj hreply)
        rw [Fat.length_bytesOf, List.length_take] at hsame
        rw [hsame, Nat.min_comm]
      have hwriteFine : Fine ⟨st.keepBuf .read fatBuf, d⟩
          (.write (cString dstName) out bytes.toNat) := by
        -- what is fine depends neither on the data nor on the buffer of `fat_read`
        rw [hlen]
        have hsame := hfine _ _ (h.stands.contains hcontent)
        exact hsame
      obtain ⟨F₂, htrace, hF₂⟩ := hF₁.call hwriteFine hwrite
      rw [List.nil_append, List.append_nil]
      refine ⟨(bytes, out), code, F₂, by rw [copyAnswer, if_neg hneg], ?_, hF₂⟩
      rw [copyAsked]
      dsimp only
      rw [if_neg hneg]
      exact .cons hstep htrace
    · rw [readReply, if_neg hneg] at hreply
      cases hreply

/-- The listing shows the current directory of the store. -/
theorem Mirrors.listOn {listed : ℤ → ℤ × (ℕ → Fat12Entry)}
    (hreturns : (listOn fuel st).Returns d (listed, st') writes) :
    Mirrors ⟨st', applyWrites writes d⟩ F ∧ ∃ entries : List Fat12Entry,
      listed fatMaxFiles = (↑entries.length, entriesOf entries) ∧
        (entries.length < fatMaxFiles → Lists F entries) := by
  obtain ⟨⟨⟨r, entries⟩, st₁⟩, first, rest, hlist, hrest, rfl⟩ := returns_bind_iff.mp hreturns
  have hready : Fat.Ready st d := h.stands.ready
  obtain ⟨rfl, rfl, fatBuf, rfl⟩ := Fat.fatList_keeps hready hlist
  injection hrest with hvalue hnil
  injection hvalue with hvalue
  obtain ⟨rfl, rfl⟩ := Prod.mk.inj hvalue
  subst hnil
  exact ⟨⟨h.stands.of_driver rfl rfl, h.empty⟩, entries, rfl, fun hroom => h.stands.list hlist hroom⟩

theorem Mirrors.cmdDir (hreturns : (cmdDirOn fuel w s st).Returns d (out, st') writes) :
    ∃ w' F', Command.dir.Follows w arg s F out ⟨st', applyWrites writes d⟩ w' F' := by
  obtain ⟨⟨listed, st₁⟩, first, rest, hlist, hrest, rfl⟩ := returns_bind_iff.mp hreturns
  obtain ⟨hmirrors, entries, hentries, hroom⟩ := h.listOn hlist
  injection hrest with hvalue hnil
  injection hvalue with hvalue
  obtain ⟨rfl, rfl⟩ := Prod.mk.inj hvalue
  subst hnil
  rw [List.append_nil]
  exact ⟨{ w with fatList := listed }, F, rfl, rfl, .nil F, ⟨entries, hentries, hroom⟩, hmirrors⟩

theorem Mirrors.cmdMfetch (hreturns : (cmdMfetchOn fuel w s st).Returns d (out, st') writes) :
    ∃ w' F', Command.mfetch.Follows w arg s F out ⟨st', applyWrites writes d⟩ w' F' := by
  obtain ⟨used, first, rest, hused, hrest, rfl⟩ := returns_bind_iff.mp hreturns
  obtain ⟨rfl, rfl⟩ := hused.unique (h.stands.used h.empty)
  obtain ⟨⟨listed, st₁⟩, second, last, hlist, hlast, rfl⟩ := returns_bind_iff.mp hrest
  obtain ⟨hmirrors, entries, hentries, hroom⟩ := h.listOn hlist
  injection hlast with hvalue hnil
  injection hvalue with hvalue
  obtain ⟨rfl, rfl⟩ := Prod.mk.inj hvalue
  subst hnil
  rw [List.nil_append, List.append_nil]
  refine ⟨{ w with
    fatGetTotalKb := fatGetTotalKb st
    fatGetUsedKb := UInt32.ofNat (F.bytes F.root)
    fatList := listed }, F, rfl, rfl, .nil F, ⟨⟨entries, ?_, hroom⟩, rfl⟩, hmirrors⟩
  exact congrArg Prod.fst hentries

theorem Mirrors.cmdType
    (hreturns : (cmdTypeOn fuel w fileBuf arg s st).Returns d (out, st') writes) :
    ∃ w' F', Command.type.Follows w arg s F out ⟨st', applyWrites writes d⟩ w' F' := by
  cases arg with
  | none => exact ⟨w, F, h.quiet rfl trivial hreturns⟩
  | some name =>
      obtain ⟨⟨⟨bytes, out'⟩, st₁⟩, first, rest, hread, hrest, rfl⟩ := returns_bind_iff.mp hreturns
      obtain ⟨F', hstep, hF'⟩ := h.served (.read (cString name) (by decide) hread)
      injection hrest with hvalue hnil
      injection hvalue with hvalue
      obtain ⟨rfl, rfl⟩ := Prod.mk.inj hvalue
      subst hnil
      rw [List.append_nil]
      exact ⟨{ w with fatRead := fun _ => (bytes, out') }, F', rfl, rfl, .single hstep, trivial, hF'⟩

theorem Mirrors.cmdCopy (hfine : Command.copy.Fine ⟨st, d⟩ w.stack arg)
    (hreturns : (printCopyOn fuel w fileBuf arg s st).Returns d (out, st') writes) :
    ∃ w' F', Command.copy.Follows w arg s F out ⟨st', applyWrites writes d⟩ w' F' := by
  obtain ⟨⟨answered, st₁⟩, first, rest, hcopy, hrest, rfl⟩ := returns_bind_iff.mp hreturns
  injection hrest with hvalue hnil
  injection hvalue with hvalue
  obtain ⟨rfl, rfl⟩ := Prod.mk.inj hvalue
  subst hnil
  rw [List.append_nil]
  -- without two names nothing is asked
  have hquiet (hnames : ∀ srcName dstName, copyNames w.stack arg ≠ .ok (some (srcName, dstName))) :
      Command.copy.asked w arg = [] := by
    rw [Command.asked]
    split
    · rename_i srcName dstName heq
      exact absurd heq (hnames srcName dstName)
    · rfl
  rw [cmdCopyOn] at hcopy
  cases hnames : copyNames w.stack arg with
  | error why =>
      rw [hnames] at hcopy
      injection hcopy with hvalue hnil
      injection hvalue with hvalue
      obtain ⟨rfl, rfl⟩ := Prod.mk.inj hvalue
      subst hnil
      refine ⟨w, F, rfl, ?_, ?_, trivial, h⟩
      · rw [Command.exec, cmdCopy_eq, hnames]
        rfl
      · rw [hquiet fun _ _ heq => by rw [hnames] at heq; cases heq]
        exact .nil F
  | ok names =>
      cases names with
      | none =>
          rw [hnames] at hcopy
          injection hcopy with hvalue hnil
          injection hvalue with hvalue
          obtain ⟨rfl, rfl⟩ := Prod.mk.inj hvalue
          subst hnil
          refine ⟨w, F, rfl, ?_, ?_, trivial, h⟩
          · rw [Command.exec, cmdCopy_eq, hnames]
            rfl
          · rw [hquiet fun _ _ heq => by rw [hnames] at heq; cases heq]
            exact .nil F
      | some pair =>
          obtain ⟨srcName, dstName⟩ := pair
          rw [hnames] at hcopy
          obtain ⟨⟨report, st₂⟩, second, last, hfile, hlast, rfl⟩ := returns_bind_iff.mp hcopy
          injection hlast with hvalue hnil
          injection hvalue with hvalue
          obtain ⟨rfl, rfl⟩ := Prod.mk.inj hvalue
          subst hnil
          obtain ⟨answer, code, F', rfl, htrace, hmirrors⟩ :=
            h.copyFile (w := w) (hfine srcName dstName hnames) hfile
          rw [List.append_nil]
          refine ⟨{ w with fatRead := fun _ => answer, fatWrite := fun _ => code }, F', rfl, ?_, ?_,
            trivial, hmirrors⟩
          · rw [Command.exec, cmdCopy_eq]
            dsimp only
            rw [hnames]
            rfl
          · rw [Command.asked]
            dsimp only
            rw [hnames]
            exact htrace

/-- **A command on a disk is one on the store that the disk stands for.** -/
theorem Mirrors.command {command : Command} (hfine : command.Fine ⟨st, d⟩ w.stack arg)
    (hreturns : (command.execOn fuel w fileBuf arg s st).Returns d (out, st') writes) :
    ∃ w' F', command.Follows w arg s F out ⟨st', applyWrites writes d⟩ w' F' := by
  cases command with
  | dir => exact h.cmdDir hreturns
  | mfetch => exact h.cmdMfetch hreturns
  | type => exact h.cmdType hreturns
  | copy => exact h.cmdCopy hfine hreturns
  | run => exact hfine.elim
  | del =>
      exact h.askOn (fun w r => { w with fatDelete := fun _ => r }) .delete (fun _ => rfl)
        (fun harg => harg ▸ rfl) (fun _ _ harg => harg ▸ rfl) (fun _ => trivial)
        (fun _ _ => ⟨trivial, trivial, trivial⟩) hreturns
  | cd =>
      exact h.askOn (fun w r => { w with fatCd := fun _ => r }) .cd (fun _ => rfl)
        (fun harg => harg ▸ rfl) (fun _ _ harg => harg ▸ rfl) (fun _ => trivial)
        (fun _ _ => ⟨trivial, trivial, trivial⟩) hreturns
  | rmdir =>
      exact h.askOn (fun w r => { w with fatRmdir := fun _ => r }) .rmdir (fun _ => rfl)
        (fun harg => harg ▸ rfl) (fun _ _ harg => harg ▸ rfl) (fun _ => trivial)
        (fun _ _ => ⟨trivial, trivial, trivial⟩) hreturns
  | mkdir =>
      exact h.askOn (fun w r => { w with fatMkdir := fun _ => r }) .mkdir (fun _ => rfl)
        (fun harg => harg ▸ rfl) (fun _ _ harg => harg ▸ rfl) (fun _ => trivial) hfine hreturns
  | ren =>
      refine h.askTwoOn (fun w r => { w with fatRename := fun _ _ => r })
        (fun oldName newName => .rename (cString oldName) (cString newName)) (fun _ => rfl)
        (fun hwords => ?_) (fun r word rest hwords => ?_) (fun _ => trivial) hfine hreturns
      · rw [Command.asked, hwords]
        rfl
      · rw [Command.asked]
        dsimp only
        rw [hwords]
        rfl
  | create =>
      refine h.askTwoOn (fun w r => { w with fatWrite := fun _ => r })
        (fun filename context =>
          .write (cString filename) (fun i => context.getD i 0) context.length) (fun _ => rfl)
        (fun hwords => ?_) (fun r word rest hwords => ?_) (fun _ => trivial) hfine hreturns
      · rw [Command.asked, hwords]
        rfl
      · rw [Command.asked]
        dsimp only
        rw [hwords, Op.request, bytesOf_getD]
        rfl
  | _ => exact ⟨w, F, h.quiet rfl trivial hreturns⟩

end Commands

/-! ## Lines and sessions -/

theorem lineCommand_of_word {w : World} {cmd : List UInt8} (hne : cmd ≠ []) {verb : Chars}
    (hverb : kFirstWord .verb cmd w.stack 32 = .ok verb) :
    lineCommand w cmd = findCommand verb := by
  rw [lineCommand, if_neg hne, hverb]
  rfl

/-- The same shell, on a disk and on the store that the disk stands for. -/
def SameShell (x : Shell × System) (y : Shell × Files) : Prop := x.1 = y.1 ∧ Mirrors x.2 y.2

/-- **A line on a disk is one on the store that the disk stands for.** -/
theorem simulates_storeStep : Simulates DiskStep StoreStep SameShell := by
  rintro ⟨s, sys⟩ ⟨_, F⟩ cmd y ⟨rfl, h⟩ hstep
  cases hstep with
  | @line _ s' st st' d fuel w fileBuf _ writes hfine hreturns =>
      unfold shellExecuteOn at hreturns
      by_cases hne : cmd = []
      · rw [if_pos hne] at hreturns
        injection hreturns with hvalue hnil
        injection hvalue with hvalue
        obtain ⟨hout, rfl⟩ := Prod.mk.inj hvalue
        obtain rfl := Except.ok.inj hout
        subst hnil
        have hnone : lineCommand w cmd = none := if_pos hne
        refine ⟨(s, F), ⟨w, if_pos hne, ?_, fun command hcommand => ?_⟩, rfl, h⟩
        · rw [lineAsked, hnone]
          exact .nil F
        · rw [hnone] at hcommand
          cases hcommand
      · rw [if_neg hne] at hreturns
        cases hverb : kFirstWord .verb cmd w.stack 32 with
        | error why =>
            rw [hverb] at hreturns
            injection hreturns with hvalue
            injection hvalue with hvalue
            cases (Prod.mk.inj hvalue).1
        | ok verb =>
            rw [hverb] at hreturns
            dsimp only at hreturns
            have hword := lineCommand_of_word hne hverb
            cases hfind : findCommand verb with
            | none =>
                rw [hfind] at hreturns hword
                injection hreturns with hvalue hnil
                injection hvalue with hvalue
                obtain ⟨hout, rfl⟩ := Prod.mk.inj hvalue
                subst hnil
                refine ⟨(s', F), ⟨w, hout, ?_, fun command hcommand => ?_⟩, rfl, h⟩
                · rw [lineAsked, hword]
                  exact .nil F
                · rw [hword] at hcommand
                  cases hcommand
            | some command =>
                rw [hfind] at hreturns hword
                obtain ⟨w', F', hstack, hexec, htrace, htold, hmirrors⟩ :=
                  h.command (hfine command hword) hreturns
                have hverb' : kFirstWord .verb cmd w'.stack 32 = .ok verb := by
                  rw [hstack]
                  exact hverb
                have hword' := (lineCommand_of_word hne hverb').trans hfind
                refine ⟨(s', F'), ⟨w', ?_, ?_, fun command' hcommand => ?_⟩, rfl, hmirrors⟩
                · rw [shellExecute, if_neg hne, hverb', Outcome.ok_bind]
                  dsimp only
                  rw [hfind]
                  exact hexec.symm
                · rw [lineAsked, hword']
                  exact htrace
                · rw [hword'] at hcommand
                  obtain rfl := Option.some.inj hcommand
                  exact htold

/-! ## A session on a blank volume -/

/-- The shell and the system behind a line, if the shell comes back from it. -/
def afterLine (cmd : List UInt8) (x : Shell × System) : Option (Shell × System) :=
  match (shellExecuteOn 4 failingWorld (fun _ => 0) cmd x.1 x.2.driver).exec x.2.disk with
  | (.ok (.ok s, st), writes) => some (s, ⟨st, applyWrites writes x.2.disk⟩)
  | _ => none

theorem diskStep_afterLine {cmd : List UInt8} {x y : Shell × System}
    (hfine : ∀ command, lineCommand failingWorld cmd = some command →
      command.Fine x.2 failingWorld.stack (kArg cmd)) (h : afterLine cmd x = some y) :
    DiskStep x cmd y := by
  obtain ⟨s, st, d⟩ := x
  rw [afterLine] at h
  split at h
  · rename_i s' st' writes hexec
    obtain rfl := Option.some.inj h
    exact .line hfine hexec
  · cases h

/-- The shell on a blank volume. -/
def blankShell : Shell × System := (freshShell, Fat.blankSystem)

theorem mirrors_blank : Mirrors Fat.blankSystem Fat.emptyStore where
  stands := Fat.stands_blankSystem
  empty := Fat.emptyDirs_blankSystem

/-- `create A x`, `cd ..` and `type A` on a blank volume. -/
theorem session_blank : ∃ x₁ x₂ x₃, DiskStep blankShell (text "create A x") x₁ ∧
    Trace DiskStep x₁ [text "cd .."] x₂ ∧ DiskStep x₂ (text "type A") x₃ ∧
    x₂.2.driver.currentDirCluster = 0 := by
  have hsome : (((afterLine (text "create A x") blankShell).bind
      (afterLine (text "cd .."))).map (·.2.driver.currentDirCluster)) = some 0 := by
    decide +kernel
  have hsome' : (((afterLine (text "create A x") blankShell).bind
      (afterLine (text "cd .."))).bind (afterLine (text "type A"))).isSome = true := by
    decide +kernel
  cases h₁ : afterLine (text "create A x") blankShell with
  | none =>
      rw [h₁] at hsome'
      cases hsome'
  | some x₁ =>
      rw [h₁, Option.bind_some] at hsome hsome'
      cases h₂ : afterLine (text "cd ..") x₁ with
      | none =>
          rw [h₂] at hsome'
          cases hsome'
      | some x₂ =>
          rw [h₂, Option.bind_some] at hsome'
          rw [h₂] at hsome
          obtain ⟨x₃, h₃⟩ := Option.isSome_iff_exists.mp hsome'
          refine ⟨x₁, x₂, x₃, diskStep_afterLine ?_ h₁, .single (diskStep_afterLine ?_ h₂),
            diskStep_afterLine ?_ h₃, Option.some.inj hsome⟩
          · intro command hcommand
            have hcreate : lineCommand failingWorld (text "create A x") =
              some .create := by decide +kernel
            obtain rfl := Option.some.inj (hcommand.symm.trans hcreate)
            have hwords : twoWords .filename failingWorld.stack
                (kArg (text "create A x")) = some ([0x41], [0x78]) := by decide +kernel
            intro filename context heq
            obtain ⟨rfl, rfl⟩ := Prod.mk.inj (Option.some.inj (heq.symm.trans hwords))
            rw [show [0x41] = Fat.nameA.chars from rfl, cString_chars]
            refine ⟨Fat.regular_write_blank, ?_, Fat.valid83_nameA.fits⟩
            exact fun _ _ n loc hlive => absurd hlive (Fat.not_liveAt_blank _ _ n loc)
          · intro command hcommand
            have hcd : lineCommand failingWorld (text "cd ..") = some .cd := by decide +kernel
            obtain rfl := Option.some.inj (hcommand.symm.trans hcd)
            trivial
          · intro command hcommand
            have htype : lineCommand failingWorld (text "type A") = some .type := by
              decide +kernel
            obtain rfl := Option.some.inj (hcommand.symm.trans htype)
            trivial

/-! ## Sessions -/

/-- **Sessions on a disk are sessions on a store.** What the shell prints for the lines of a
session is what it prints when a store answers them, and the disk stands for that store. -/
theorem shell_refines_store {x y : Shell × System} {F : Files} (hF : Mirrors x.2 F)
    {lines : List (List UInt8)} (h : Trace DiskStep x lines y) :
    ∃ F', Trace StoreStep (x.1, F) lines (y.1, F') ∧ Mirrors y.2 F' := by
  obtain ⟨⟨s, F'⟩, htrace, rfl, hmirrors⟩ :=
    simulates_storeStep.trace (a := (x.1, F)) ⟨rfl, hF⟩ h
  exact ⟨F', htrace, hmirrors⟩

/-- A session on a blank volume. -/
theorem shell_refines_store_blank : ∃ y F',
    Trace DiskStep blankShell [text "create A x", text "cd .."] y ∧
    Trace StoreStep (freshShell, Fat.emptyStore) [text "create A x", text "cd .."] (y.1, F') ∧
    Mirrors y.2 F' := by
  obtain ⟨x₁, x₂, -, hcreate, hup, -⟩ := session_blank
  have hsession := Trace.cons hcreate hup
  obtain ⟨F', htrace, hmirrors⟩ := shell_refines_store mirrors_blank hsession
  exact ⟨x₂, F', hsession, htrace, hmirrors⟩

end MasterOS.Console
