/-
# The command history

What the history holds after any keys: the lines submitted so far, the newest first, as
long as there were at most ten. `history_save` shifts every entry by one before it looks at
the number of entries, so that the eleventh line is already saved past the last row.

Beside the shell stands a record of what was typed, kept from the keys alone.
-/

import MasterOS.Console.Editing

namespace MasterOS.Console

/-! ## The record of what was typed -/

/-- The line being edited, and the non-empty lines submitted so far, the newest first. -/
structure Typed where
  line : List UInt8
  lines : List (List UInt8)

/-- Before anything was typed. -/
def Typed.start : Typed := ⟨[], []⟩

/-- One key: Enter submits the line, the other keys edit it. -/
def Typed.key (r : Typed) (c : UInt8) : Typed :=
  if c = 0x0A then ⟨[], if r.line = [] then r.lines else r.line :: r.lines⟩
  else { r with line := editLine r.line c }

/-- Any keys. -/
def Typed.keys (keys : List UInt8) : Typed := keys.foldl Typed.key .start

/-- A line as a string: a NUL ends it. -/
def asString (line : List UInt8) : List UInt8 := line.takeWhile (· ≠ 0)

theorem asString_ne_zero (line : List UInt8) : ∀ c ∈ asString line, c ≠ 0 := by
  intro c hc
  have hp : decide (c ≠ 0) = true := List.mem_takeWhile_imp (p := fun c => decide (c ≠ 0)) hc
  exact of_decide_eq_true hp

/-! ## Saving a line -/

/-- A string that fits in a row of the history. -/
structure FitsRow (str : List UInt8) : Prop where
  ne_zero : ∀ c ∈ str, c ≠ 0
  fits : str.length < shellBufferSize

/-- The first entries of the history are some strings, and there are no more. -/
structure History.Lists (h : History) (strings : List (List UInt8)) : Prop where
  count : h.count = strings.length
  rows : ∀ i str, strings[i]? = some str → Spells (h.rows i) 0 str
  fits : ∀ str ∈ strings, FitsRow str

variable {h : History} {strings : List (List UInt8)} {str : List UInt8}

theorem historyAt_of_lt {i : ℕ} (hi : i < historySize) : historyAt i = .ok i := if_pos hi

theorem History.get_eq {i : ℕ} (hi : i < historySize) (hstr : FitsRow str)
    (hrow : Spells (h.rows i) 0 str) : h.get i = .ok str := by
  rw [History.get, historyAt_of_lt hi, Outcome.ok_bind]
  exact readString_of_spells hstr.ne_zero hstr.fits hrow

/-- A row is filled, and the other rows stay. -/
theorem History.put_gives {i : ℕ} (hi : i < historySize) (hstr : FitsRow str) :
    (h.put i str).Gives fun h' =>
      h'.count = h.count ∧ Spells (h'.rows i) 0 str ∧ ∀ k ≠ i, h'.rows k = h.rows k := by
  obtain ⟨row, hrow, hspells⟩ := @kStrcpy_gives .historyRow _ (h.rows i) hstr.ne_zero hstr.fits
  refine ⟨{ h with rows := Function.update h.rows i row }, ?_, rfl, ?_, fun k hk => ?_⟩
  · rw [History.put, historyAt_of_lt hi, Outcome.ok_bind, hrow]
    rfl
  · show Spells (Function.update h.rows i row i) 0 str
    rw [Function.update_self]
    exact hspells
  · exact Function.update_of_ne hk row h.rows

/-- The loop of `history_save` while there is a row to shift into. It goes from the last
entry down, so that an entry is read before it is written. -/
theorem History.shift_gives {n : ℕ} (hn : n < historySize)
    (hfits : ∀ str ∈ strings, FitsRow str) (hlength : n ≤ strings.length)
    (hrows : ∀ i str, i < n → strings[i]? = some str → Spells (h.rows i) 0 str) :
    (h.shift n).Gives fun h' => h'.count = h.count ∧
      (∀ i str, i < n → strings[i]? = some str → Spells (h'.rows (i + 1)) 0 str) ∧
      ∀ k, n < k → h'.rows k = h.rows k := by
  induction n generalizing h with
  | zero => exact ⟨h, rfl, rfl, nofun, fun _ _ => rfl⟩
  | succ n ih =>
      have hlast := List.getElem?_eq_getElem hlength
      have hstr := hfits _ (List.getElem_mem hlength)
      have hget : h.get n = .ok strings[n] :=
        History.get_eq (Nat.lt_of_succ_lt hn) hstr (hrows n _ (Nat.lt_succ_self n) hlast)
      obtain ⟨h₁, hput, hcount, hrow, hother⟩ := @put_gives h _ (n + 1) hn hstr
      obtain ⟨h', hshift, hcount', hrows', hother'⟩ := @ih h₁ (Nat.lt_of_succ_lt hn)
        (Nat.le_of_succ_le hlength) fun i str hi hstr => by
          rw [hother i (by omega)]
          exact hrows i str (Nat.lt_succ_of_lt hi) hstr
      refine ⟨h', ?_, hcount'.trans hcount, fun i str hi hi' => ?_, fun k hk => ?_⟩
      · rw [History.shift, hget, Outcome.ok_bind, hput, Outcome.ok_bind, hshift]
      · rcases Nat.lt_succ_iff_lt_or_eq.mp hi with hlt | rfl
        · exact hrows' i str hlt hi'
        · rw [hother' (i + 1) (Nat.lt_succ_self i)]
          obtain rfl := Option.some.inj (hlast.symm.trans hi')
          exact hrow
      · rw [hother' k (Nat.lt_of_succ_lt hk), hother k (by omega)]

/-- A line is saved in front of at most nine others. -/
theorem History.Lists.save (hlists : h.Lists strings) (hroom : strings.length < historySize)
    (hstr : FitsRow str) : (h.save str).Gives fun h' => h'.Lists (str :: strings) := by
  obtain ⟨h₁, hshift, hcount, hrows, _⟩ := @History.shift_gives h strings _ hroom hlists.fits le_rfl
    fun i str _ => hlists.rows i str
  obtain ⟨h₂, hput, hcount₂, hrow, hother⟩ := @History.put_gives h₁ _ 0 (by decide) hstr
  have hcount₂ : h₂.count = strings.length := by rw [hcount₂, hcount, hlists.count]
  refine ⟨{ h₂ with count := h₂.count + 1 }, ?_, ?_, ?_, ?_⟩
  · rw [History.save, hlists.count, hshift, Outcome.ok_bind, hput, Outcome.ok_bind,
      if_pos (hcount₂ ▸ hroom)]
  · exact congrArg (· + 1) hcount₂
  · intro i str' hi
    cases i with
    | zero =>
        obtain rfl := Option.some.inj hi
        exact hrow
    | succ i =>
        rw [List.getElem?_cons_succ] at hi
        have hlt : i < strings.length := (List.getElem?_eq_some_iff.mp hi).1
        show Spells (h₂.rows (i + 1)) 0 str'
        rw [hother (i + 1) (Nat.succ_ne_zero i)]
        exact hrows i str' hlt hi
  · intro str' hstr'
    rcases List.mem_cons.mp hstr' with rfl | hmem
    · exact hstr
    · exact hlists.fits str' hmem

/-- With ten entries the first round of the loop shifts the last one past the array. -/
theorem History.Lists.save_full (hlists : h.Lists strings) (hfull : strings.length = historySize) :
    h.save str = .error (.fault (.historyIndex historySize)) := by
  have hlt : 9 < strings.length := by rw [hfull]; decide
  have hget : h.get 9 = .ok strings[9] :=
    History.get_eq (by decide) (hlists.fits _ (List.getElem_mem hlt))
      (hlists.rows 9 _ (List.getElem?_eq_getElem hlt))
  have hshift : h.shift (9 + 1) = .error (.fault (.historyIndex historySize)) := by
    rw [History.shift, hget, Outcome.ok_bind]
    rfl
  rw [History.save, hlists.count, hfull]
  exact congrArg (· >>= _) hshift

/-! ## The commands leave the history alone -/

section

variable (w : World) (s : Shell)

theorem foldl_history {α : Type} {body : Shell → α → Shell}
    (h : ∀ s a, (body s a).history = s.history) (l : List α) :
    (l.foldl body s).history = s.history :=
  List.foldlRecOn l body (motive := fun s' => s'.history = s.history) rfl
    fun s' hs' a _ => (h s' a).trans hs'

@[simp]
theorem print_history (str : List UInt8) : (s.print str).history = s.history := rfl

@[simp]
theorem say_history (str : String) : (s.say str).history = s.history := rfl

@[simp]
theorem setColor_history (fg bg : UInt8) : (s.setColor fg bg).history = s.history := rfl

@[simp]
theorem printUint_history (n : ℕ) : (s.printUint n).history = s.history :=
  foldl_history s (fun s d => print_history s [d]) (decimal n)

/-- A computation that comes back leaves the history as it was. -/
def Outcome.KeepsHistory (o : Outcome Shell) (h : History) : Prop :=
  ∀ s', o = .ok s' → s'.history = h

theorem keepsHistory_ok {s : Shell} {h : History} (hs : s.history = h) :
    Outcome.KeepsHistory (.ok s) h := by
  intro s' hs'
  obtain rfl := Except.ok.inj hs'
  exact hs

theorem keepsHistory_bind {α : Type} {o : Outcome α} {f : α → Outcome Shell} {h : History}
    (hf : ∀ a, (f a).KeepsHistory h) : Outcome.KeepsHistory (o >>= f) h := by
  cases o with
  | ok a => exact hf a
  | error stop => exact nofun

theorem dirEntry_history (e : Fat.Fat12Entry) : (dirEntry e s).history = s.history := by
  unfold dirEntry
  split_ifs <;> simp only [say_history, print_history, printUint_history]

theorem cmdDir_history : (cmdDir w s).history = s.history := by
  unfold cmdDir
  dsimp only
  split_ifs
  · exact say_history s _
  · exact say_history s _
  · exact (foldl_history _ (fun s i => dirEntry_history s _) _).trans (say_history s _)

theorem typeByte_history (c : UInt8) : (typeByte s c).history = s.history := by
  unfold typeByte
  split_ifs
  · rfl
  · exact say_history s _
  · exact print_history s _

theorem cmdType_history (arg : Option (List UInt8)) : (cmdType w arg s).history = s.history := by
  cases arg with
  | none => exact say_history s _
  | some arg =>
      unfold cmdType
      dsimp only
      split_ifs
      · simp only [say_history, print_history]
      · exact foldl_history s (fun s i => typeByte_history s _) _

theorem cpuid_history : (cpuid w s).history = s.history := by
  simp only [cpuid, say_history, print_history]

theorem cmdMfetch_history : (cmdMfetch w s).history = s.history := by
  simp only [cmdMfetch, cpuid_history, say_history, printUint_history,
    foldl_history s say_history]

theorem reportRemoval_history (answer : ℤ) (done failed : String) (arg : List UInt8) :
    (reportRemoval answer done failed arg s).history = s.history := by
  unfold reportRemoval
  split_ifs <;> simp only [say_history, print_history]

theorem historyRows_keepsHistory (n x : ℕ) : (historyRows n x s).KeepsHistory s.history := by
  induction n generalizing x s with
  | zero => exact keepsHistory_ok rfl
  | succ n ih =>
      rw [historyRows]
      apply keepsHistory_bind
      intro row
      have hrest := ih ((((s.printUint x).say " ").print row).say "\r\n") (x + 1)
      simpa using hrest

theorem cmdHistory_keepsHistory : (cmdHistory s).KeepsHistory s.history := by
  unfold cmdHistory
  split_ifs
  · exact keepsHistory_ok (say_history s _)
  · exact historyRows_keepsHistory s _ _

theorem cmdSetprompt_keepsHistory (arg : Option (List UInt8)) :
    (cmdSetprompt arg s).KeepsHistory s.history := by
  cases arg with
  | none => exact keepsHistory_ok (say_history s _)
  | some arg => exact keepsHistory_bind fun name => keepsHistory_ok rfl

theorem cmdCreate_keepsHistory (arg : Option (List UInt8)) :
    (cmdCreate w arg s).KeepsHistory s.history := by
  cases arg with
  | none => exact keepsHistory_ok (say_history s _)
  | some arg =>
      apply keepsHistory_bind
      intro filename
      apply keepsHistory_bind
      intro length
      split_ifs
      · exact keepsHistory_ok (say_history s _)
      · exact keepsHistory_bind fun filename => keepsHistory_ok rfl

theorem cmdColor_keepsHistory (arg : Option (List UInt8)) :
    (cmdColor arg s).KeepsHistory s.history := by
  cases arg with
  | none => exact keepsHistory_ok (say_history s _)
  | some arg =>
      apply keepsHistory_bind
      intro fg
      cases kArg arg with
      | none => exact keepsHistory_ok (say_history s _)
      | some bgStr => exact keepsHistory_bind fun bg => keepsHistory_ok (setColor_history s _ _)

theorem cmdRen_keepsHistory (arg : Option (List UInt8)) :
    (cmdRen w arg s).KeepsHistory s.history := by
  cases arg with
  | none => exact keepsHistory_ok (say_history s _)
  | some arg =>
      apply keepsHistory_bind
      intro oldName
      cases kArg arg with
      | none => exact keepsHistory_ok (say_history s _)
      | some newName =>
          apply keepsHistory_bind
          intro oldName
          split_ifs <;> exact keepsHistory_ok (by simp only [say_history, print_history])

theorem cmdCopy_keepsHistory (arg : Option (List UInt8)) :
    (cmdCopy w arg s).KeepsHistory s.history := by
  cases arg with
  | none => exact keepsHistory_ok (say_history s _)
  | some arg =>
      apply keepsHistory_bind
      intro srcName
      cases kArg arg with
      | none => exact keepsHistory_ok (say_history s _)
      | some dstName =>
          apply keepsHistory_bind
          intro srcName
          dsimp only
          split_ifs <;>
            exact keepsHistory_ok (by simp only [say_history, print_history, printUint_history])

theorem cmdTime_keepsHistory (arg : Option (List UInt8)) :
    (cmdTime w arg s).KeepsHistory s.history := by
  apply keepsHistory_bind
  intro offset
  exact keepsHistory_ok (by simp only [say_history, printUint_history])

theorem cmdEcho_history (arg : Option (List UInt8)) : (cmdEcho arg s).history = s.history := by
  cases arg <;> simp only [cmdEcho, say_history, print_history]

theorem cmdCd_history (arg : Option (List UInt8)) : (cmdCd w arg s).history = s.history := by
  cases arg with
  | none => exact say_history s _
  | some arg =>
      unfold cmdCd
      dsimp only
      split_ifs <;> simp only [say_history, print_history]

theorem cmdMkdir_history (arg : Option (List UInt8)) :
    (cmdMkdir w arg s).history = s.history := by
  cases arg with
  | none => exact say_history s _
  | some arg =>
      unfold cmdMkdir
      dsimp only
      split_ifs <;> simp only [say_history, print_history]

theorem cmdRmdir_history (arg : Option (List UInt8)) :
    (cmdRmdir w arg s).history = s.history := by
  cases arg with
  | none => exact say_history s _
  | some arg => exact reportRemoval_history s _ _ _ arg

theorem cmdDel_history (arg : Option (List UInt8)) : (cmdDel w arg s).history = s.history := by
  cases arg with
  | none => exact say_history s _
  | some arg => exact reportRemoval_history s _ _ _ arg

theorem cmdRun_history (arg : Option (List UInt8)) : (cmdRun w arg s).history = s.history := by
  cases arg with
  | none => exact say_history s _
  | some arg => rfl

/-- A command leaves the history as it was. -/
theorem Command.exec_keepsHistory (command : Command) (arg : Option (List UInt8)) :
    (command.exec w arg s).KeepsHistory s.history := by
  cases command with
  | help => exact keepsHistory_ok (foldl_history s say_history _)
  | cls => exact keepsHistory_ok rfl
  | echo => exact keepsHistory_ok (cmdEcho_history s arg)
  | ver => exact keepsHistory_ok (say_history s _)
  | dir => exact keepsHistory_ok (cmdDir_history w s)
  | type => exact keepsHistory_ok (cmdType_history w s arg)
  | halt => exact nofun
  | mfetch => exact keepsHistory_ok (cmdMfetch_history w s)
  | del => exact keepsHistory_ok (cmdDel_history w s arg)
  | ren => exact cmdRen_keepsHistory w s arg
  | copy => exact cmdCopy_keepsHistory w s arg
  | create => exact cmdCreate_keepsHistory w s arg
  | time => exact cmdTime_keepsHistory w s arg
  | history => exact cmdHistory_keepsHistory s
  | color => exact cmdColor_keepsHistory s arg
  | run => exact keepsHistory_ok (cmdRun_history w s arg)
  | cpuid => exact keepsHistory_ok (cpuid_history w s)
  | reboot => exact keepsHistory_ok (say_history s _)
  | shutdown => exact keepsHistory_ok (say_history s _)
  | setprompt => exact cmdSetprompt_keepsHistory s arg
  | cd => exact keepsHistory_ok (cmdCd_history w s arg)
  | mkdir => exact keepsHistory_ok (cmdMkdir_history w s arg)
  | rmdir => exact keepsHistory_ok (cmdRmdir_history w s arg)
  | colorhelp => exact keepsHistory_ok (print_history s _)

/-- `shell_execute` leaves the history as it was. -/
theorem shellExecute_keepsHistory (line : List UInt8) :
    (shellExecute w line s).KeepsHistory s.history := by
  unfold shellExecute
  split_ifs
  · exact keepsHistory_ok rfl
  · apply keepsHistory_bind
    intro verb
    dsimp only
    cases findCommand verb with
    | some command => exact command.exec_keepsHistory w s _
    | none =>
        apply keepsHistory_bind
        intro verb
        exact keepsHistory_ok (by simp only [say_history, print_history])

/-- `print_prompt` leaves the history as it was. -/
theorem printPrompt_keepsHistory : (s.printPrompt w).KeepsHistory s.history := by
  apply keepsHistory_bind
  intro name
  exact keepsHistory_ok (by simp only [say_history, setColor_history, print_history])

end

/-! ## Keys -/

/-- The shell agrees with the record of what was typed, and there were at most ten lines. -/
structure Shell.Follows (s : Shell) (r : Typed) : Prop where
  buffer : s.Buffers r.line
  lists : s.history.Lists (r.lines.map asString)
  lines : r.lines.length ≤ historySize

theorem follows_start (screen : Screen) : (Shell.start screen).Follows .start where
  buffer := ⟨rfl, by decide, nofun⟩
  lists := ⟨rfl, nofun, nofun⟩
  lines := by decide

/-- A fault of the history. -/
def Fault.OfHistory : Fault → Prop
  | .historyIndex _ => True
  | _ => False

variable {s s' : Shell} {r : Typed} {w : World}

theorem fitsRow_asString {line : List UInt8} (h : line.length < shellBufferSize) :
    FitsRow (asString line) where
  ne_zero := asString_ne_zero line
  fits := (List.takeWhile_sublist _).length_le.trans_lt h

/-- The `history` command stays inside the history. -/
theorem historyRows_not_faultsIn {strings : List (List UInt8)} (h : s.history.Lists strings)
    (hle : strings.length ≤ historySize) {n x : ℕ} (hn : x + n ≤ strings.length) :
    ¬ (historyRows n x s).FaultsIn Fault.OfHistory := by
  induction n generalizing x s with
  | zero => exact not_faultsIn_ok s
  | succ n ih =>
      have hx : x < strings.length := by omega
      have hget : s.history.get x = .ok strings[x] :=
        History.get_eq (hx.trans_le hle) (h.fits _ (List.getElem_mem hx))
          (h.rows x _ (List.getElem?_eq_getElem hx))
      rw [historyRows, hget, Outcome.ok_bind]
      apply ih _ (by omega)
      simpa only [say_history, print_history, printUint_history] using h

/-- Carrying out a line does not touch an index past the history. -/
theorem shellExecute_not_faultsIn {strings : List (List UInt8)} (h : s.history.Lists strings)
    (hle : strings.length ≤ historySize) {line : List UInt8} (hline : ∀ c ∈ line, c ≠ 0) :
    ¬ (shellExecute w line s).FaultsIn Fault.OfHistory := by
  rw [shellExecute_faultsIn_iff hline]
  rintro ⟨command, _, hfaults⟩
  by_cases hcommand : command = .history
  · subst hcommand
    revert hfaults
    show ¬ (cmdHistory s).FaultsIn Fault.OfHistory
    unfold cmdHistory
    split_ifs
    · exact not_faultsIn_ok _
    · exact historyRows_not_faultsIn h hle (by rw [Nat.zero_add]; exact h.count.le)
  · obtain ⟨f, hf, hhistory⟩ := (Command.exec_faultsIn_iff hline hcommand w s).mp hfaults
    cases command with
    | create => exact (hf.2 ▸ hhistory : Fault.OfHistory .nullPointer)
    | time => exact (hf.2 ▸ hhistory : Fault.OfHistory .nullPointer)
    | setprompt => exact (hf.2 ▸ hhistory : Fault.OfHistory (.overrun .promptName))
    | _ => exact hf

/-- What is in the buffer when Enter ends the line. -/
theorem Shell.Buffers.readString {line : List UInt8} (h : s.Buffers line) :
    readString .shellBuf (Function.update s.shellBuf s.shellLen 0) = .ok (asString line) := by
  apply readString_eq h.room
  constructor
  · intro k c hk
    have hlt : k < line.length := (List.getElem?_eq_some_iff.mp hk).1
    rw [Nat.zero_add, Function.update_of_ne (by rw [h.len]; exact hlt.ne)]
    exact h.buf k c hk
  · rw [Nat.zero_add, ← h.len, Function.update_self]

/-- The record behind Enter. -/
theorem Typed.key_enter (r : Typed) :
    r.key 0x0A = ⟨[], if r.line = [] then r.lines else r.line :: r.lines⟩ :=
  if_pos rfl

/-- Enter saves a line that is not empty, while there is room for it. -/
theorem Shell.Follows.saved_gives (h : s.Follows r)
    (hle : (r.key 0x0A).lines.length ≤ historySize) :
    (s.saved (asString r.line)).Gives fun history =>
      history.Lists ((r.key 0x0A).lines.map asString) := by
  rw [Typed.key_enter] at hle ⊢
  unfold Shell.saved
  by_cases hline : r.line = []
  · have hlen : ¬ 0 < s.shellLen := by rw [h.buffer.len, hline]; exact Nat.lt_irrefl 0
    rw [if_neg hlen]
    simp only [if_pos hline]
    exact ⟨_, rfl, h.lists⟩
  · have hlen : 0 < s.shellLen := h.buffer.len ▸ List.length_pos_iff.mpr hline
    simp only [if_neg hline] at hle ⊢
    rw [if_pos hlen]
    exact h.lists.save (by rw [List.length_map]; exact hle) (fitsRow_asString h.buffer.room)

/-- The eleventh line. -/
theorem Shell.Follows.saved_full (h : s.Follows r)
    (hgt : historySize < (r.key 0x0A).lines.length) :
    s.saved (asString r.line) = .error (.fault (.historyIndex historySize)) := by
  rw [Typed.key_enter] at hgt
  unfold Shell.saved
  by_cases hline : r.line = []
  · simp only [if_pos hline] at hgt
    exact absurd h.lines (Nat.not_le.mpr hgt)
  · have hlen : 0 < s.shellLen := h.buffer.len ▸ List.length_pos_iff.mpr hline
    simp only [if_neg hline] at hgt
    rw [if_pos hlen]
    apply h.lists.save_full
    rw [List.length_map]
    exact Nat.le_antisymm h.lines (Nat.le_of_lt_succ hgt)

/-- Enter, in its steps. -/
theorem Shell.Follows.enter_eq (h : s.Follows r) :
    ∃ s₁ : Shell, s₁.history = s.history ∧ shellHandleChar w 0x0A s =
      s.saved (asString r.line) >>= fun history =>
        shellExecute w (asString r.line) { s₁ with history := history } >>= fun s₂ =>
          Shell.printPrompt w { s₂ with shellLen := 0 } := by
  have hstore : storeChar .shellBuf s.shellBuf s.shellLen 0 =
      .ok (Function.update s.shellBuf s.shellLen 0) :=
    storeChar_of_lt (h.buffer.len ▸ h.buffer.room) s.shellBuf 0
  refine ⟨{ s with shellBuf := Function.update s.shellBuf s.shellLen 0 }.say "\r\n", ?_, ?_⟩
  · rw [say_history]
  · rw [shellHandleChar, if_pos rfl, hstore, Outcome.ok_bind, submitLine]
    have hbuf (str : String) (t : Shell) : (t.say str).shellBuf = t.shellBuf := rfl
    rw [hbuf, h.buffer.readString, Outcome.ok_bind]
    rfl

/-- **What a key does to the history.** The shell goes on to agree with the record, unless a
fault or a command stops it. -/
theorem Shell.Follows.key (h : s.Follows r) {c : UInt8} (hs' : shellHandleChar w c s = .ok s') :
    s'.Follows (r.key c) := by
  by_cases henter : c = 0x0A
  · subst henter
    obtain ⟨s₁, _, henter⟩ := h.enter_eq (w := w)
    rw [henter] at hs'
    rcases Nat.lt_or_ge historySize (r.key 0x0A).lines.length with hgt | hle
    · rw [h.saved_full hgt] at hs'
      cases hs'
    · obtain ⟨history, hsaved, hlists⟩ := h.saved_gives hle
      rw [hsaved, Outcome.ok_bind] at hs'
      obtain ⟨s₂, hexec, hprompt⟩ := Outcome.bind_eq_ok hs'
      have hhistory : s'.history = history :=
        (printPrompt_keepsHistory w _ _ hprompt).trans (shellExecute_keepsHistory w _ _ _ hexec)
      have hlen : s'.shellLen = 0 := by
        obtain ⟨name, _, hname⟩ := Outcome.bind_eq_ok hprompt
        exact congrArg Shell.shellLen (Except.ok.inj hname).symm
      rw [Typed.key_enter] at hle hlists ⊢
      exact ⟨⟨hlen, show 0 < shellBufferSize by decide, nofun⟩, hhistory ▸ hlists, hle⟩
  obtain ⟨s'', hkey, hbuffers, _, hhistory⟩ := h.buffer.key w henter
  obtain rfl := Except.ok.inj (hkey.symm.trans hs')
  rw [Typed.key, if_neg henter]
  exact ⟨hbuffers, hhistory ▸ h.lists, h.lines⟩

theorem readString_not_faultsIn {array : CharArray} {P : Fault → Prop}
    (hP : ¬ P (.unterminated array)) (a : Chars) : ¬ (readString array a).FaultsIn P := by
  unfold MasterOS.Console.readString
  split_ifs
  · exact not_faultsIn_ok _
  · exact fun h => hP (faultsIn_fault_iff.mp h)

/-- No other key submits a line. -/
theorem Typed.key_lines {c : UInt8} (hc : c ≠ 0x0A) (r : Typed) : (r.key c).lines = r.lines := by
  rw [Typed.key, if_neg hc]

/-- A key faults in the history exactly when it submits an eleventh line. -/
theorem Shell.Follows.key_faultsIn_iff (h : s.Follows r) (c : UInt8) :
    (shellHandleChar w c s).FaultsIn Fault.OfHistory ↔
      historySize < (r.key c).lines.length := by
  by_cases henter : c = 0x0A
  · subst henter
    obtain ⟨s₁, _, henter⟩ := h.enter_eq (w := w)
    rw [henter]
    rcases Nat.lt_or_ge historySize (r.key 0x0A).lines.length with hgt | hle
    · rw [h.saved_full hgt]
      exact iff_of_true (faultsIn_fault_iff.mpr trivial) hgt
    · obtain ⟨history, hsaved, hlists⟩ := h.saved_gives hle
      rw [hsaved, Outcome.ok_bind]
      refine iff_of_false (not_faultsIn_bind ?_ fun s₂ => ?_) (Nat.not_lt.mpr hle)
      · apply shellExecute_not_faultsIn hlists _ (asString_ne_zero r.line)
        rw [List.length_map]
        exact hle
      · exact not_faultsIn_bind (readString_not_faultsIn id _) fun name => not_faultsIn_ok _
  · rw [Typed.key_lines henter]
    exact iff_of_false (h.buffer.key w henter).not_faultsIn (Nat.not_lt.mpr h.lines)

/-- Lines are never taken back. -/
theorem Typed.lines_le_key (r : Typed) (c : UInt8) : r.lines.length ≤ (r.key c).lines.length := by
  by_cases henter : c = 0x0A
  · subst henter
    rw [Typed.key_enter]
    dsimp only
    split_ifs
    · exact le_rfl
    · exact Nat.le_succ _
  · exact (congrArg List.length (r.key_lines henter)).ge

theorem Typed.lines_le_keys (keys : List UInt8) (r : Typed) :
    r.lines.length ≤ (keys.foldl Typed.key r).lines.length := by
  induction keys generalizing r with
  | nil => exact le_rfl
  | cons c keys ih => exact (r.lines_le_key c).trans (ih (r.key c))

/-- **Any keys.** A run that comes back agrees with the record, and a run faults in the history
only when there are more lines than the history has rows. -/
theorem Shell.Follows.run (keys : List (World × UInt8)) (h : s.Follows r) :
    (∀ s', s.run keys = .ok s' → s'.Follows ((keys.map Prod.snd).foldl Typed.key r)) ∧
      ((s.run keys).FaultsIn Fault.OfHistory →
        historySize < ((keys.map Prod.snd).foldl Typed.key r).lines.length) := by
  induction keys generalizing s r with
  | nil =>
      constructor
      · intro s' hs'
        obtain rfl := Except.ok.inj hs'
        exact h
      · intro hfault
        exact absurd hfault (not_faultsIn_ok s)
  | cons key keys ih =>
      obtain ⟨w, c⟩ := key
      rw [List.map_cons, List.foldl_cons, Shell.run]
      cases hnext : shellHandleChar w c s with
      | ok next => exact ih (h.key hnext)
      | error stop =>
          refine ⟨nofun, fun hfault => ?_⟩
          have hkey : (shellHandleChar w c s).FaultsIn Fault.OfHistory := hnext ▸ hfault
          exact ((h.key_faultsIn_iff c).mp hkey).trans_le (Typed.lines_le_keys _ _)

/-- The entries of the history, as far as it is filled. -/
def History.entries (h : History) : List (Outcome (List UInt8)) :=
  (List.range h.count).map h.get

theorem History.Lists.entries (hlists : h.Lists strings) (hle : strings.length ≤ historySize) :
    h.entries = strings.map Except.ok := by
  rw [History.entries, hlists.count]
  apply List.ext_getElem
  · rw [List.length_map, List.length_map, List.length_range]
  · intro i hi hi'
    rw [List.length_map] at hi'
    rw [List.getElem_map, List.getElem_map, List.getElem_range]
    exact History.get_eq (hi'.trans_le hle) (hlists.fits _ (List.getElem_mem hi'))
      (hlists.rows i _ (List.getElem?_eq_getElem hi'))

/-- **The command history after any keys.** With at most ten non-empty lines no index past the
history is used, and its entries are the lines, the newest first. With more of them the keys
are not handled to the end. -/
theorem history_of_keys (screen : Screen) (keys : List (World × UInt8)) :
    let lines := (Typed.keys (keys.map Prod.snd)).lines
    let outcome := (Shell.start screen).run keys
    (lines.length ≤ historySize → ¬ outcome.FaultsIn Fault.OfHistory ∧
      ∀ s, outcome = .ok s →
        s.history.entries = (lines.take historySize).map fun line => .ok (asString line)) ∧
      (historySize < lines.length → ∀ s, outcome ≠ .ok s) := by
  intro lines outcome
  have hrun := (follows_start screen).run keys
  refine ⟨fun hle => ⟨fun hfault => Nat.not_lt.mpr hle (hrun.2 hfault), fun s hs => ?_⟩,
    fun hgt s hs => Nat.not_lt.mpr (hrun.1 s hs).lines hgt⟩
  have hlists := (hrun.1 s hs).lists
  rw [hlists.entries (by rw [List.length_map]; exact hle), List.take_of_length_le hle,
    List.map_map]
  rfl

/-- Eleven times the line `a`. -/
def elevenLines : List (World × UInt8) :=
  (List.replicate 11 [(failingWorld, 0x61), (failingWorld, 0x0A)]).flatten

/-- The eleventh line is saved to `history[10]`. -/
theorem history_overrun :
    ((Shell.start (Screen.boot fun _ => 0)).run elevenLines).stop? =
      some (.fault (.historyIndex 10)) := by
  decide +kernel

end MasterOS.Console
