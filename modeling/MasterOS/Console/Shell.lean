/-
# The shell

The line buffer, the command history and the commands. Strings are lists of characters
without a NUL, a pointer to one is an option, and a character array is a function on
indices, named by what the source calls it. A store behind the end of an array, an array left without
a NUL, a read through a null pointer and an index past the history are faults.

What the commands ask of the rest of the system is answered by a `World`, which may answer
anything. The text that the commands print goes to the modelled screen.
-/

import MasterOS.Console.Login
import MasterOS.Console.Vga
import MasterOS.Fat.Driver
import Mathlib.Data.Nat.Digits.Defs

namespace MasterOS.Console

open MasterOS.Fat (Fat12Entry)

/-! ## Faults -/

/-- `SHELL_BUFFER_SIZE`. -/
def shellBufferSize : ℕ := 256

/-- `HISTORY_SIZE`. -/
def historySize : ℕ := 10

/-- The character arrays of the shell. -/
inductive CharArray
  | verb | filename | oldName | srcName | promptName | shellBuf | historyRow
  deriving DecidableEq

/-- The declared size of an array. -/
def CharArray.size : CharArray → ℕ
  | .shellBuf => shellBufferSize
  | .historyRow => shellBufferSize
  | _ => 32

/-- What a command or a key must not do. -/
inductive Fault
  | nullPointer
  | overrun (array : CharArray)
  | unterminated (array : CharArray)
  | historyIndex (i : ℕ)
  deriving DecidableEq

/-- Why the shell does not come back: a fault, or `halt`. -/
inductive Stop
  | fault (f : Fault)
  | halted
  deriving DecidableEq

/-- What a function of the shell comes back with, if it does. -/
abbrev Outcome (α : Type) := Except Stop α

/-- What stopped a function of the shell, if anything did. -/
def Outcome.stop? {α : Type} : Outcome α → Option Stop
  | .ok _ => none
  | .error stop => some stop

/-! ## Strings and arrays -/

/-- A character array. -/
abbrev Chars := ℕ → UInt8

/-- A string literal. -/
def text (s : String) : List UInt8 := s.toList.map fun c => UInt8.ofNat c.toNat

/-- `a[i] = c` in one of the arrays. -/
def storeChar (array : CharArray) (a : Chars) (i : ℕ) (c : UInt8) : Outcome Chars :=
  if i < array.size then .ok (Function.update a i c) else .error (.fault (.overrun array))

/-- The string in an array, up to its first NUL. -/
def readString (array : CharArray) (a : Chars) : Outcome (List UInt8) :=
  if ∃ i < array.size, a i = 0 then
    .ok (((List.range array.size).map a).takeWhile (· ≠ 0))
  else .error (.fault (.unterminated array))

/-- An array that was filled has to hold a string. -/
def settle (array : CharArray) (a : Chars) : Outcome Chars := do
  let _ ← readString array a
  .ok a

/-- A pointer is read through. -/
def deref : Option (List UInt8) → Outcome (List UInt8)
  | some s => .ok s
  | none => .error (.fault .nullPointer)

/-- `k_strlen`. -/
def kStrlen (s : Option (List UInt8)) : Outcome ℕ := do
  let s ← deref s
  .ok s.length

/-- `k_arg`: what stands behind the first space, unless that is nothing. -/
def kArg : List UInt8 → Option (List UInt8)
  | [] => none
  | c :: rest => if c = 0x20 then (if rest = [] then none else some rest) else kArg rest

/-- `k_strcpy`, from index `i` of the destination on. -/
def kStrcpyFrom (array : CharArray) : List UInt8 → ℕ → Chars → Outcome Chars
  | [], i, dst => storeChar array dst i 0
  | c :: rest, i, dst => do
      let dst ← storeChar array dst i c
      kStrcpyFrom array rest (i + 1) dst

/-- `k_strcpy`. -/
def kStrcpy (array : CharArray) (dst : Chars) (src : List UInt8) : Outcome Chars := do
  let dst ← kStrcpyFrom array src 0 dst
  settle array dst

/-- The digits that `k_atoi` reads. An `int` is taken in two's complement. -/
def kAtoiFrom : List UInt8 → UInt32 → UInt32
  | [], result => result
  | c :: rest, result =>
      if 0x30 ≤ c ∧ c ≤ 0x39 then kAtoiFrom rest (result * 10 + (c - 0x30).toUInt32) else result

/-- `k_atoi`. -/
def kAtoi (s : Option (List UInt8)) : Outcome UInt32 := do
  let s ← deref s
  .ok (kAtoiFrom s 0)

/-- `k_first_word`, from index `i` of the destination on. -/
def kFirstWordFrom (array : CharArray) (n : ℕ) : List UInt8 → ℕ → Chars → Outcome Chars
  | [], i, dst => storeChar array dst i 0
  | c :: rest, i, dst =>
      if c ≠ 0x20 ∧ i < n - 1 then do
        let dst ← storeChar array dst i c
        kFirstWordFrom array n rest (i + 1) dst
      else storeChar array dst i 0

/-- `k_first_word`. -/
def kFirstWord (array : CharArray) (src : List UInt8) (dst : Chars) (n : ℕ) :
    Outcome Chars := do
  let dst ← kFirstWordFrom array n src 0 dst
  settle array dst

/-! ## The state -/

/-- `FAT_MAX_FILES`. -/
def fatMaxFiles : ℤ := 64

/-- `history` and `history_count`. -/
structure History where
  rows : ℕ → Chars
  count : ℕ

/-- The statics of the shell, and the screen. -/
structure Shell where
  screen : Screen
  promptName : Chars
  history : History
  shellBuf : Chars
  shellLen : ℕ

/-- `RTCTime`, without the seconds, which nothing here reads. -/
structure RTCTime where
  hours : UInt8
  minutes : UInt8
  day : UInt8
  month : UInt8
  year : UInt8

/-- The answers of the rest of the system to one command, and what the stack holds where
the command has its arrays. -/
structure World where
  stack : Chars
  totalMemKb : UInt32
  currentPath : List UInt8
  fatList : ℤ → ℤ × (ℕ → Fat12Entry)
  fatRead : List UInt8 → ℤ × (ℕ → UInt8)
  fatWrite : List UInt8 → ℤ
  fatDelete : List UInt8 → ℤ
  fatRename : List UInt8 → List UInt8 → ℤ
  fatCd : List UInt8 → ℤ
  fatMkdir : List UInt8 → ℤ
  fatRmdir : List UInt8 → ℤ
  fatGetTotalKb : UInt32
  fatGetUsedKb : UInt32
  rtcRead : RTCTime
  vendor : List UInt8
  uptime : UInt32
  execRun : List UInt8 → Screen → Screen

/-! ## Output -/

/-- `print`. -/
def Shell.print (s : Shell) (str : List UInt8) : Shell := { s with screen := s.screen.print str }

/-- Print a string literal. -/
def Shell.say (s : Shell) (str : String) : Shell := s.print (text str)

/-- `set_color`. -/
def Shell.setColor (fg bg : UInt8) (s : Shell) : Shell :=
  { s with screen := s.screen.setColor fg bg }

/-- The digits of a number, as `print_uint` prints them. -/
def decimal (n : ℕ) : List UInt8 :=
  if n = 0 then [0x30] else (Nat.digits 10 n).reverse.map fun d => UInt8.ofNat (0x30 + d)

/-- `print_uint`. -/
def Shell.printUint (s : Shell) (n : ℕ) : Shell := (decimal n).foldl (fun s d => s.print [d]) s

/-- `print_prompt`. -/
def Shell.printPrompt (w : World) (s : Shell) : Outcome Shell := do
  let saved := s.screen.currColor
  let name ← readString .promptName s.promptName
  let s := (s.setColor 2 0).print name
  let s := (s.setColor 7 0).say "@"
  let s := (s.setColor 10 0).say "MasterOS"
  let s := (s.setColor 7 0).say ":"
  let s := (s.setColor 14 0).print w.currentPath
  let s := (s.setColor 7 0).say "> "
  .ok { s with screen := s.screen.restoreColor saved }

/-! ## The history -/

/-- An index of `history`. -/
def historyAt (i : ℕ) : Outcome ℕ :=
  if i < historySize then .ok i else .error (.fault (.historyIndex i))

/-- `k_strcpy(history[i], src)`. -/
def History.put (h : History) (i : ℕ) (src : List UInt8) : Outcome History := do
  let i ← historyAt i
  let row ← kStrcpy .historyRow (h.rows i) src
  .ok { h with rows := Function.update h.rows i row }

/-- `history[i]` as a string. -/
def History.get (h : History) (i : ℕ) : Outcome (List UInt8) := do
  let i ← historyAt i
  readString .historyRow (h.rows i)

/-- The loop of `history_save`, from index `i` down. -/
def History.shift : ℕ → History → Outcome History
  | 0, h => .ok h
  | i + 1, h => do
      let src ← h.get i
      let h ← h.put (i + 1) src
      h.shift i

/-- `history_save`. -/
def History.save (h : History) (cmd : List UInt8) : Outcome History := do
  let h ← h.shift h.count
  let h ← h.put 0 cmd
  .ok (if h.count < historySize then { h with count := h.count + 1 } else h)

/-! ## Commands -/

/-- `cmd_setprompt`. -/
def cmdSetprompt (arg : Option (List UInt8)) (s : Shell) : Outcome Shell :=
  match arg with
  | none => .ok (s.say "Usage: setprompt <name>\r\n")
  | some arg => do
      let name ← kStrcpy .promptName s.promptName arg
      .ok { s with promptName := name }

/-- `cmd_help`. -/
def cmdHelp (s : Shell) : Shell :=
  ["MasterOS Shell Commands:\r\n",
    "  help       - Show this help\r\n",
    "  cls        - Clear the screen\r\n",
    "  echo <msg> - Print a message\r\n",
    "  ver        - Show OS version\r\n",
    "  dir        - List files on disk\r\n",
    "  type <file>- Print file contents\r\n",
    "  mfetch     - Show system info\r\n",
    "  del <file> - Delete a file\r\n",
    "  ren <a> <b>- Rename a file\r\n",
    "  copy <a> <b>- Copy a file\r\n",
    "  halt       - Halt the system\r\n",
    "  create <file> <context> - Creates a file with the given context\r\n",
    "  time <timezone>  - Show the current time & date\r\n",
    "  history    - Shows past runned commands\r\n",
    "  color <text> <background> - Changes the system color (colorhelp for color codes) \r\n",
    "  run <program> - Runs the given .COM program\r\n",
    "  cpuid      - Shows CPU vendor string\r\n",
    "  reboot     - Reboots the system\r\n",
    "  shutdown   - Shuts down the system\r\n",
    "  setprompt <name> - Sets the shell prompt name\r\n",
    "  cd <dirname> - Change directory\r\n",
    "  mkdir <dirname> - Create a directory\r\n",
    "  rmdir <dirname> - Remove a directory\r\n"].foldl Shell.say s

/-- `cmd_cls`. -/
def cmdCls (s : Shell) : Shell := { s with screen := s.screen.reset }

/-- `cmd_ver`. -/
def cmdVer (s : Shell) : Shell := s.say "MasterOS v0.6.8 \"OSIX\"\r\n"

/-- `cmd_echo`. -/
def cmdEcho (arg : Option (List UInt8)) (s : Shell) : Shell :=
  match arg with
  | some arg => (s.print arg).say "\r\n"
  | none => s.say "\r\n"

/-- `cmd_cd`. -/
def cmdCd (w : World) (arg : Option (List UInt8)) (s : Shell) : Shell :=
  match arg with
  | none => s.say "Usage: cd <dirname>\r\n"
  | some arg =>
      if w.fatCd arg ≠ 0 then ((s.say "Directory not found: ").print arg).say "\r\n" else s

/-- `cmd_mkdir`. -/
def cmdMkdir (w : World) (arg : Option (List UInt8)) (s : Shell) : Shell :=
  match arg with
  | none => s.say "Usage: mkdir <dirname>\r\n"
  | some arg =>
      if w.fatMkdir arg = 0 then ((s.say "Created: ").print arg).say "\r\n"
      else s.say "Failed to create directory.\r\n"

/-- The body that `cmd_rmdir` and `cmd_del` share: what they print by the answer. -/
def reportRemoval (answer : ℤ) (done failed : String) (arg : List UInt8) (s : Shell) : Shell :=
  if answer = 0 then ((s.say done).print arg).say "\r\n"
  else ((s.say failed).print arg).say "\r\n"

/-- `cmd_rmdir`. -/
def cmdRmdir (w : World) (arg : Option (List UInt8)) (s : Shell) : Shell :=
  match arg with
  | none => s.say "Usage: rmdir <dirname>\r\n"
  | some arg => reportRemoval (w.fatRmdir arg) "Removed: " "Directory not found: " arg s

/-- `cmd_del`. -/
def cmdDel (w : World) (arg : Option (List UInt8)) (s : Shell) : Shell :=
  match arg with
  | none => s.say "Usage: del <filename>\r\n"
  | some arg => reportRemoval (w.fatDelete arg) "Deleted: " "File not found: " arg s

/-- `cmd_reboot`, up to the write to the port. -/
def cmdReboot (s : Shell) : Shell := s.say "Rebooting...\r\n"

/-- `cmd_shutdown`, up to the write to the port. -/
def cmdShutdown (s : Shell) : Shell := s.say "Shutting down...\r\n"

/-- `cmd_halt`. -/
def cmdHalt : Outcome Shell := .error .halted

/-- The loop of `cmd_history`, with `n` entries from index `x` to go. -/
def historyRows : (n x : ℕ) → Shell → Outcome Shell
  | 0, _, s => .ok s
  | n + 1, x, s => do
      let row ← s.history.get x
      historyRows n (x + 1) ((((s.printUint x).say " ").print row).say "\r\n")

/-- `cmd_history`. -/
def cmdHistory (s : Shell) : Outcome Shell :=
  if s.history.count < 1 then .ok (s.say "No history yet...\r\n")
  else historyRows s.history.count 0 s

/-- `cpuid`. -/
def cpuid (w : World) (s : Shell) : Shell := ((s.say "CPU Vendor: ").print w.vendor).say "\r\n"

/-- One entry of `cmd_dir`. -/
def dirEntry (e : Fat12Entry) (s : Shell) : Shell :=
  let s := if e.isDir ≠ 0 then (s.say "  [DIR] ").print e.name
    else ((((s.say "  ").print e.name).say "  (").printUint e.size.toNat).say " bytes)"
  s.say "\r\n"

/-- `cmd_dir`. -/
def cmdDir (w : World) (s : Shell) : Shell :=
  let (count, entries) := w.fatList fatMaxFiles
  if count < 0 then s.say "Error: could not read disk.\r\n"
  else if count = 0 then s.say "No files found.\r\n"
  else (List.range count.toNat).foldl (fun s i => dirEntry (entries i) s)
    (s.say "Directory listing:\r\n")

/-- One byte of `cmd_type`. -/
def typeByte (s : Shell) (c : UInt8) : Shell :=
  if c = 0x0D then s else if c = 0x0A then s.say "\r\n" else s.print [c]

/-- `cmd_type`. -/
def cmdType (w : World) (arg : Option (List UInt8)) (s : Shell) : Shell :=
  match arg with
  | none => s.say "Usage: type <filename>\r\n"
  | some arg =>
      let (bytes, fileBuf) := w.fatRead arg
      if bytes < 0 then ((s.say "File not found: ").print arg).say "\r\n"
      else ((List.range bytes.toNat).foldl (fun s i => typeByte s (fileBuf i)) s).say "\r\n"

/-- `cmd_mfetch`. -/
def cmdMfetch (w : World) (s : Shell) : Shell :=
  let s := ["\r\n",
    "                     ########  ######## \r\n",
    " ######## #####    ###    ### ###    ## \r\n",
    "  ######### ####  ##      ### ######    \r\n",
    "  ###  ###  #### ###     ###    ######  \r\n",
    " ###  ###  #### ##     ### ##    ####   \r\n",
    " ################ ########  ########    \r\n",
    "\r\n",
    "  OS:      ",
    "MasterOS v0.6.9 \"OSIX\"",
    "\r\n",
    "  Kernel:  Custom x86 (32-bit)\r\n",
    "  Shell:   mShell\r\n",
    "  Memory:  "].foldl Shell.say s
  let s := (s.printUint w.totalMemKb.toNat).say " KB\r\n"
  let totalKb := w.fatGetTotalKb
  let usedBytes := w.fatGetUsedKb
  let freeKb := if usedBytes < totalKb * 1024 then totalKb - usedBytes / 1024 else 0
  let fileCount := max (w.fatList fatMaxFiles).1 0
  let s := ((s.say "  Disk:    FAT12/16, ").printUint usedBytes.toNat).say " Bytes used / "
  let s := (s.printUint totalKb.toNat).say " KB total ("
  let s := (s.printUint freeKb.toNat).say " KB free)\r\n"
  let s := ((s.say "  Files:   ").printUint fileCount.toNat).say " file(s) in root\r\n"
  let s := cpuid w (s.say "  CPU:     ")
  let s := ((s.say "  Uptime:  ").printUint w.uptime.toNat).say " seconds\r\n"
  s.say "\r\n"

/-- `cmd_create`. The length of the content is taken before the pointer to it is checked. -/
def cmdCreate (w : World) (arg : Option (List UInt8)) (s : Shell) : Outcome Shell :=
  match arg with
  | none => .ok (s.say "Usage: create <filename> <context>\r\n")
  | some arg => do
      let filename ← kFirstWord .filename arg w.stack 32
      let context := kArg arg
      let _ ← kStrlen context
      if context = none then .ok (s.say "Usage: create <filename> <context>\r\n")
      else do
        let filename ← readString .filename filename
        let _ := w.fatWrite filename
        .ok s

/-- `cmd_color`. -/
def cmdColor (arg : Option (List UInt8)) (s : Shell) : Outcome Shell :=
  let usage := s.say "Usage: color <text> <background> colorhelp to color codes\r\n"
  match arg with
  | none => .ok usage
  | some arg => do
      let fg ← kAtoi (some arg)
      match kArg arg with
      | none => .ok usage
      | some bgStr => do
          let bg ← kAtoi (some bgStr)
          .ok (s.setColor fg.toUInt8 bg.toUInt8)

/-- `cmd_colorhelp`. -/
def cmdColorhelp (s : Shell) : Shell :=
  s.print (["0 FOR BLACK\r\n", "1 FOR BLUE\r\n", "2 FOR GREEN\r\n", "3 FOR CYAN\r\n",
    "4 FOR RED\r\n", "5 FOR MAGENTA\r\n", "6 FOR BROWN\r\n", "7 FOR LIGHT GREY\r\n",
    "8 FOR DARK GREY\r\n", "9 FOR LIGHT BLUE\r\n", "10 FOR LIGHT CYAN\r\n",
    "11 FOR DARK CYAN\r\n", "12 FOR LIGHT MAGENTA\r\n", "13 FOR DARK MAGENTA\r\n",
    "14 FOR LIGHT BROWN\r\n", "15 FOR WHITE\r\n",
    "Usage: color <text> <background>\r\n"].flatMap text)

/-- `cmd_ren`. -/
def cmdRen (w : World) (arg : Option (List UInt8)) (s : Shell) : Outcome Shell :=
  match arg with
  | none => .ok (s.say "Usage: ren <oldname> <newname>\r\n")
  | some arg => do
      let oldName ← kFirstWord .oldName arg w.stack 32
      match kArg arg with
      | none => .ok (s.say "Usage: ren <oldname> <newname>\r\n")
      | some newName => do
          let oldName ← readString .oldName oldName
          if w.fatRename oldName newName = 0 then
            .ok (((((s.say "Renamed ").print oldName).say " to ").print newName).say "\r\n")
          else .ok (((s.say "File not found: ").print oldName).say "\r\n")

/-- `cmd_copy`. -/
def cmdCopy (w : World) (arg : Option (List UInt8)) (s : Shell) : Outcome Shell :=
  match arg with
  | none => .ok (s.say "Usage: copy <source> <destination>\r\n")
  | some arg => do
      let srcName ← kFirstWord .srcName arg w.stack 32
      match kArg arg with
      | none => .ok (s.say "Usage: copy <source> <destination>\r\n")
      | some dstName => do
          let srcName ← readString .srcName srcName
          let bytes := (w.fatRead srcName).1
          if bytes < 0 then .ok (((s.say "Source not found: ").print srcName).say "\r\n")
          else if w.fatWrite dstName = 0 then
            let s := (((s.say "Copied ").print srcName).say " to ").print dstName
            .ok (((s.say " (").printUint bytes.toNat).say " bytes)\r\n")
          else .ok (s.say "Copy failed (disk full or error).\r\n")

/-- `cmd_run`. -/
def cmdRun (w : World) (arg : Option (List UInt8)) (s : Shell) : Shell :=
  match arg with
  | none => s.say "Usage: run <program.com>\r\n"
  | some arg => { s with screen := w.execRun arg s.screen }

/-- `cmd_time`. The hour is an 8-bit number, and the offset may take it past 24. -/
def cmdTime (w : World) (arg : Option (List UInt8)) (s : Shell) : Outcome Shell := do
  let t := w.rtcRead
  let offset ← kAtoi arg
  let hours := t.hours + offset.toUInt8
  let hours := if 24 ≤ hours then hours - 24 else hours
  let s := ((s.printUint hours.toNat).say ":").printUint t.minutes.toNat
  let s := ((s.say "  ").printUint t.day.toNat).say "/"
  let s := ((s.printUint t.month.toNat).say "/").printUint t.year.toNat
  .ok (s.say " \r\n")

/-! ## Dispatch -/

/-- The commands. -/
inductive Command
  | help | cls | echo | ver | dir | type | halt | mfetch | del | ren | copy | create | time
  | history | color | run | cpuid | reboot | shutdown | setprompt | cd | mkdir | rmdir
  | colorhelp
  deriving DecidableEq

/-- The verbs in the order in which `shell_execute` compares them. -/
def verbs : List (String × Command) :=
  [("help", .help), ("cls", .cls), ("echo", .echo), ("ver", .ver), ("dir", .dir),
    ("type", .type), ("halt", .halt), ("mfetch", .mfetch), ("del", .del), ("ren", .ren),
    ("copy", .copy), ("create", .create), ("time", .time), ("history", .history),
    ("color", .color), ("run", .run), ("cpuid", .cpuid), ("reboot", .reboot),
    ("shutdown", .shutdown), ("setprompt", .setprompt), ("cd", .cd), ("mkdir", .mkdir),
    ("rmdir", .rmdir), ("colorhelp", .colorhelp)]

/-- Run a command. -/
def Command.exec (command : Command) (w : World) (arg : Option (List UInt8)) (s : Shell) :
    Outcome Shell :=
  match command with
  | .help => .ok (cmdHelp s)
  | .cls => .ok (cmdCls s)
  | .echo => .ok (cmdEcho arg s)
  | .ver => .ok (cmdVer s)
  | .dir => .ok (cmdDir w s)
  | .type => .ok (cmdType w arg s)
  | .halt => cmdHalt
  | .mfetch => .ok (cmdMfetch w s)
  | .del => .ok (cmdDel w arg s)
  | .ren => cmdRen w arg s
  | .copy => cmdCopy w arg s
  | .create => cmdCreate w arg s
  | .time => cmdTime w arg s
  | .history => cmdHistory s
  | .color => cmdColor arg s
  | .run => .ok (cmdRun w arg s)
  | .cpuid => .ok (MasterOS.Console.cpuid w s)
  | .reboot => .ok (cmdReboot s)
  | .shutdown => .ok (cmdShutdown s)
  | .setprompt => cmdSetprompt arg s
  | .cd => .ok (cmdCd w arg s)
  | .mkdir => .ok (cmdMkdir w arg s)
  | .rmdir => .ok (cmdRmdir w arg s)
  | .colorhelp => .ok (cmdColorhelp s)

/-- The command that a verb names, if it names one. -/
def findCommand (verb : Chars) : Option Command :=
  (verbs.find? fun entry => kStrcmp verb 0 (text entry.1) = 0).map Prod.snd

/-- `shell_execute`. -/
def shellExecute (w : World) (cmd : List UInt8) (s : Shell) : Outcome Shell :=
  if cmd = [] then .ok s
  else do
    let verb ← kFirstWord .verb cmd w.stack 32
    let arg := kArg cmd
    match findCommand verb with
    | some command => command.exec w arg s
    | none => do
        let verb ← readString .verb verb
        let s := ((s.say "Unknown command: ").print verb).say "\r\n"
        .ok (s.say "Type \x27help\x27 for a list of commands.\r\n")

/-! ## Keys -/

/-- `if (shell_len > 0) history_save(shell_buf)`. -/
def Shell.saved (s : Shell) (line : List UInt8) : Outcome History :=
  if 0 < s.shellLen then s.history.save line else .ok s.history

/-- The case `'\n'` of `shell_handle_char`, behind the store of the NUL. -/
def submitLine (w : World) (s : Shell) : Outcome Shell := do
  let s := s.say "\r\n"
  let line ← readString .shellBuf s.shellBuf
  let history ← s.saved line
  let s ← shellExecute w line { s with history := history }
  Shell.printPrompt w { s with shellLen := 0 }

/-- `shell_handle_char`. -/
def shellHandleChar (w : World) (c : UInt8) (s : Shell) : Outcome Shell :=
  if c = 0x0A then do
    let buf ← storeChar .shellBuf s.shellBuf s.shellLen 0
    submitLine w { s with shellBuf := buf }
  else if c = 0x08 then
    .ok (if 0 < s.shellLen then { s with shellLen := s.shellLen - 1 }.print [0x08] else s)
  else if s.shellLen < shellBufferSize - 1 then do
    let buf ← storeChar .shellBuf s.shellBuf s.shellLen c
    .ok ({ s with shellBuf := buf, shellLen := s.shellLen + 1 }.print [c])
  else .ok s

/-- Keys, each with the answers of the system to it. -/
def Shell.run : List (World × UInt8) → Shell → Outcome Shell
  | [], s => .ok s
  | (w, c) :: rest, s => do
      let s ← shellHandleChar w c s
      s.run rest

/-- The shell behind `shell_init`, on some screen. -/
def Shell.start (screen : Screen) : Shell where
  screen := screen
  promptName i := (text "user")[i]?.getD 0
  history := ⟨fun _ _ => 0, 0⟩
  shellBuf _ := 0
  shellLen := 0

end MasterOS.Console
