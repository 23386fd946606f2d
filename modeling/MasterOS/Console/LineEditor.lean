/-
# The line editor

`shell_handle_char` with `history_save` and `shell_execute` as observers: they only note the
string they are passed. The buffer is used again for every line and never cleared, and
stands for a list of characters all the same: what lies behind the line is never read, since
Enter stores a NUL there first.
-/

import MasterOS.Console.History

namespace MasterOS.Console

/-! ## The code with observers -/

/-- The buffer of the shell, the indexes it was written at, and what the observers noted. -/
structure Editor where
  shellBuf : Chars
  shellLen : ℤ
  written : List ℤ
  saved : List (Outcome (List UInt8))
  executed : List (Outcome (List UInt8))

/-- `shell_buf[i] = c`. -/
def Editor.store (e : Editor) (i : ℤ) (c : UInt8) : Editor :=
  { e with shellBuf := Function.update e.shellBuf i.toNat c, written := e.written ++ [i] }

/-- `history_save(shell_buf)`, observed. -/
def Editor.historySave (e : Editor) : Editor :=
  { e with saved := e.saved ++ [readString .shellBuf e.shellBuf] }

/-- `shell_execute(shell_buf)`, observed. -/
def Editor.shellExecute (e : Editor) : Editor :=
  { e with executed := e.executed ++ [readString .shellBuf e.shellBuf] }

/-- `shell_handle_char`, without what it prints. -/
def Editor.shellHandleChar (e : Editor) (c : UInt8) : Editor :=
  if c = 0x0A then
    let e := e.store e.shellLen 0
    let e := if 0 < e.shellLen then e.historySave else e
    { e.shellExecute with shellLen := 0 }
  else if c = 0x08 then
    if 0 < e.shellLen then { e with shellLen := e.shellLen - 1 } else e
  else if e.shellLen < shellBufferSize - 1 then
    { e.store e.shellLen c with shellLen := e.shellLen + 1 }
  else e

/-- `shell_init`, on a buffer that holds anything. -/
def Editor.shellInit (buf : Chars) : Editor := Editor.store ⟨buf, 0, [], [], []⟩ 0 0

/-! ## What the editor is for -/

/-- A line as a list of characters, and the lines submitted so far. -/
structure Reference where
  line : List UInt8
  submitted : List (List UInt8)

/-- One key. -/
def Reference.key (r : Reference) (c : UInt8) : Reference :=
  if c = 0x0A then ⟨[], r.submitted ++ [r.line]⟩ else { r with line := editLine r.line c }

/-- The editor keeps its bounds, and the observers are passed what the reference submits. -/
structure Editor.Refines (e : Editor) (r : Reference) : Prop where
  len : 0 ≤ e.shellLen ∧ e.shellLen ≤ shellBufferSize - 1
  written : ∀ i ∈ e.written, 0 ≤ i ∧ i < shellBufferSize
  executed : e.executed = r.submitted.map Except.ok
  saved : e.saved = (r.submitted.filter (· ≠ [])).map Except.ok

/-! ## The simulation -/

/-- The editor holds the line of the reference. -/
structure Editor.Holds (e : Editor) (r : Reference) : Prop where
  len : e.shellLen = r.line.length
  room : r.line.length < shellBufferSize
  buf : ∀ (k : ℕ) c, (r.line)[k]? = some c → e.shellBuf k = c
  noNul : ∀ c ∈ r.line, c ≠ 0
  refines : e.Refines r

variable {e : Editor} {r : Reference} {c : UInt8}

@[simp]
theorem Editor.store_shellBuf (e : Editor) (i : ℤ) (c : UInt8) :
    (e.store i c).shellBuf = Function.update e.shellBuf i.toNat c := rfl

@[simp]
theorem Editor.store_shellLen (e : Editor) (i : ℤ) (c : UInt8) :
    (e.store i c).shellLen = e.shellLen := rfl

@[simp]
theorem Editor.store_written (e : Editor) (i : ℤ) (c : UInt8) :
    (e.store i c).written = e.written ++ [i] := rfl

@[simp]
theorem Editor.store_executed (e : Editor) (i : ℤ) (c : UInt8) :
    (e.store i c).executed = e.executed := rfl

@[simp]
theorem Editor.store_saved (e : Editor) (i : ℤ) (c : UInt8) : (e.store i c).saved = e.saved := rfl

theorem len_zero : (0 : ℤ) ≤ 0 ∧ (0 : ℤ) ≤ shellBufferSize - 1 := by decide

theorem holds_shellInit (buf : Chars) : (Editor.shellInit buf).Holds ⟨[], []⟩ where
  len := rfl
  room := by decide
  buf := nofun
  noNul := nofun
  refines := ⟨len_zero,
    List.forall_mem_singleton.mpr ⟨Int.le_refl 0, by decide⟩, rfl, rfl⟩

theorem Editor.Holds.toNat_len (h : e.Holds r) : e.shellLen.toNat = r.line.length := by
  rw [h.len, Int.toNat_natCast]

/-- A store at the end of the line stays inside the buffer. -/
theorem Editor.Holds.written_store (h : e.Holds r) :
    ∀ i ∈ e.written ++ [e.shellLen], 0 ≤ i ∧ i < shellBufferSize := by
  intro i hi
  have hroom := h.room
  rcases List.mem_append.mp hi with hold | hnew
  · exact h.refines.written i hold
  · rw [List.mem_singleton.mp hnew, h.len]
    omega

/-- What the observers are passed. -/
theorem Editor.Holds.readString (h : e.Holds r) :
    readString .shellBuf (e.store e.shellLen 0).shellBuf = .ok r.line := by
  rw [Editor.store_shellBuf, h.toNat_len]
  refine readString_of_spells h.noNul h.room ⟨fun k d hd => ?_, ?_⟩
  · have hlt := (List.getElem?_eq_some_iff.mp hd).1
    rw [Nat.zero_add, Function.update_of_ne hlt.ne]
    exact h.buf k d hd
  · rw [Nat.zero_add, Function.update_self]

/-- Enter: both observers are passed the line, `history_save` unless it is empty. -/
theorem Editor.Holds.enter (h : e.Holds r) : (e.shellHandleChar 0x0A).Holds (r.key 0x0A) := by
  have hstring := h.readString
  have hexecuted : e.executed ++ [.ok r.line] = (r.submitted ++ [r.line]).map Except.ok := by
    rw [h.refines.executed, List.map_append, List.map_singleton]
  have hempty : ([] : List UInt8).length < shellBufferSize := by decide
  rw [Editor.shellHandleChar, Reference.key, if_pos rfl, if_pos rfl]
  dsimp only
  rw [Editor.store_shellLen]
  by_cases hpos : 0 < e.shellLen
  · have hne : r.line ≠ [] := fun hnil => by
      rw [h.len, hnil] at hpos
      cases hpos
    rw [if_pos hpos]
    refine ⟨rfl, hempty, nofun, nofun, ⟨len_zero, h.written_store, ?_, ?_⟩⟩
    · dsimp only [Editor.shellExecute, Editor.historySave]
      rw [hstring, Editor.store_executed, hexecuted]
    · dsimp only [Editor.shellExecute, Editor.historySave]
      have hkept : [r.line].filter (· ≠ []) = [r.line] :=
        List.filter_eq_self.mpr (List.forall_mem_singleton.mpr (decide_eq_true hne))
      rw [hstring, Editor.store_saved, h.refines.saved, List.filter_append, hkept, List.map_append,
        List.map_singleton]
  · have hnil : r.line = [] := by
      rw [h.len] at hpos
      exact List.length_eq_zero_iff.mp (by omega)
    rw [if_neg hpos]
    refine ⟨rfl, hempty, nofun, nofun, ⟨len_zero, h.written_store, ?_, ?_⟩⟩
    · dsimp only [Editor.shellExecute]
      rw [hstring, Editor.store_executed, hexecuted]
    · dsimp only [Editor.shellExecute]
      rw [Editor.store_saved, h.refines.saved, hnil, List.filter_append,
        List.filter_cons_of_neg (by decide), List.filter_nil, List.append_nil]

/-- A backspace takes the last character back. -/
theorem Editor.Holds.backspace (h : e.Holds r) : (e.shellHandleChar 0x08).Holds (r.key 0x08) := by
  have hroom := h.room
  have hne : (0x08 : UInt8) ≠ 0x0A := by decide
  rw [Editor.shellHandleChar, Reference.key, if_neg hne, if_neg hne, if_pos rfl, editLine,
    if_pos rfl]
  by_cases hpos : 0 < e.shellLen
  · rw [if_pos hpos]
    refine ⟨?_, ?_, fun k d hd => ?_, fun d hd => h.noNul d (List.dropLast_subset _ hd),
      ⟨?_, h.refines.written, h.refines.executed, h.refines.saved⟩⟩
    · dsimp only
      rw [h.len, List.length_dropLast]
      rw [h.len] at hpos
      omega
    · rw [List.length_dropLast]
      omega
    · rw [List.getElem?_dropLast] at hd
      split_ifs at hd
      exact h.buf k d hd
    · dsimp only
      have hlen := h.len
      omega
  · have hnil : r.line = [] := by
      rw [h.len] at hpos
      exact List.length_eq_zero_iff.mp (by omega)
    rw [if_neg hpos, hnil, List.dropLast_nil, ← hnil]
    exact h

/-- Any other key goes to the end of a line that is not full. -/
theorem Editor.Holds.append (h : e.Holds r) (hc : c ≠ 0) (henter : c ≠ 0x0A) (hback : c ≠ 0x08) :
    (e.shellHandleChar c).Holds (r.key c) := by
  have hlen := h.len
  rw [Editor.shellHandleChar, Reference.key, if_neg henter, if_neg henter, if_neg hback, editLine,
    if_neg hback]
  have hiff : e.shellLen < shellBufferSize - 1 ↔ r.line.length < 255 := by
    rw [hlen, shellBufferSize]
    omega
  by_cases hroom : r.line.length < 255
  · rw [if_pos (hiff.mpr hroom), if_pos hroom]
    refine ⟨?_, ?_, fun k d hd => ?_, fun d hd => ?_,
      ⟨?_, h.written_store, h.refines.executed, h.refines.saved⟩⟩
    · dsimp only
      rw [hlen, List.length_append, List.length_singleton]
      rfl
    · rw [List.length_append]
      exact Nat.succ_lt_succ hroom
    · show Function.update e.shellBuf e.shellLen.toNat c k = d
      rw [h.toNat_len]
      rcases Nat.lt_trichotomy k r.line.length with hlt | rfl | hgt
      · rw [List.getElem?_append_left hlt] at hd
        rw [Function.update_of_ne hlt.ne]
        exact h.buf k d hd
      · rw [List.getElem?_concat_length] at hd
        rw [Function.update_self]
        exact Option.some.inj hd
      · rw [List.getElem?_eq_none (by rw [List.length_append]; exact hgt)] at hd
        cases hd
    · rcases List.mem_append.mp hd with hold | hnew
      · exact h.noNul d hold
      · rw [List.mem_singleton.mp hnew]
        exact hc
    · dsimp only
      omega
  · rw [if_neg (mt hiff.mp hroom), if_neg hroom]
    exact h

/-- One key. -/
theorem Editor.Holds.key (h : e.Holds r) (hc : c ≠ 0) : (e.shellHandleChar c).Holds (r.key c) := by
  by_cases henter : c = 0x0A
  · rw [henter]
    exact h.enter
  · by_cases hback : c = 0x08
    · rw [hback]
      exact h.backspace
    · exact h.append hc henter hback

/-- Any keys. -/
theorem Editor.Holds.keys {keys : List UInt8} (h : e.Holds r) (hkeys : ∀ c ∈ keys, c ≠ 0) :
    (keys.foldl Editor.shellHandleChar e).Holds (keys.foldl Reference.key r) := by
  induction keys generalizing e r with
  | nil => exact h
  | cons c rest ih =>
      obtain ⟨hc, hrest⟩ := List.forall_mem_cons.mp hkeys
      exact ih (h.key hc) hrest

/-- **The line editor.** After any keys the length and every index that was written are inside
the buffer, and the observers were passed what the reference submitted, `history_save` the
lines that are not empty. -/
theorem shellHandleChar_refines {keys : List UInt8} (hkeys : ∀ c ∈ keys, c ≠ 0) (buf : Chars) :
    (keys.foldl Editor.shellHandleChar (Editor.shellInit buf)).Refines
      (keys.foldl Reference.key ⟨[], []⟩) :=
  ((holds_shellInit buf).keys hkeys).refines

/-- A line with a slip in it, and an empty one. -/
theorem shellHandleChar_refines_ver :
    ([0x76, 0x65, 0x73, 0x08, 0x72, 0x0A, 0x0A].foldl Editor.shellHandleChar
      (Editor.shellInit fun _ => 0xFF)).Refines ⟨[], [[0x76, 0x65, 0x72], []]⟩ :=
  @shellHandleChar_refines [0x76, 0x65, 0x73, 0x08, 0x72, 0x0A, 0x0A] (by decide +kernel)
    fun _ => 0xFF

/-! ## The shell itself -/

/-- The editor has the buffer of the shell. -/
def Editor.Of (e : Editor) (s : Shell) : Prop := e.shellBuf = s.shellBuf ∧ e.shellLen = s.shellLen

/-- **The shell does to its buffer what the editor does**, and passes the observed functions
the strings that the observers note. -/
theorem shellHandleChar_of {s : Shell} (h : e.Of s) (hroom : s.shellLen < shellBufferSize)
    (w : World) (c : UInt8) :
    (c ≠ 0x0A → (shellHandleChar w c s).Gives fun s' => (e.shellHandleChar c).Of s') ∧
      (c = 0x0A → ∃ s₁ : Shell, s₁.shellLen = s.shellLen ∧ shellHandleChar w c s =
        (readString .shellBuf (e.store e.shellLen 0).shellBuf >>= fun line =>
          s₁.saved line >>= fun history => shellExecute w line { s₁ with history := history } >>=
            fun s₂ => Shell.printPrompt w { s₂ with shellLen := 0 })) := by
  obtain ⟨hbuf, hlen⟩ := h
  have htoNat : e.shellLen.toNat = s.shellLen := by rw [hlen, Int.toNat_natCast]
  have hstored (c : UInt8) : (e.store e.shellLen c).shellBuf =
      Function.update s.shellBuf s.shellLen c := by rw [Editor.store_shellBuf, hbuf, htoNat]
  have hpos : 0 < e.shellLen ↔ 0 < s.shellLen := by omega
  have hfull : e.shellLen < shellBufferSize - 1 ↔ s.shellLen < shellBufferSize - 1 := by
    unfold shellBufferSize
    omega
  constructor
  · intro henter
    rw [shellHandleChar, Editor.shellHandleChar, if_neg henter, if_neg henter]
    by_cases hback : c = 0x08
    · rw [if_pos hback, if_pos hback]
      by_cases hlt : 0 < s.shellLen
      · rw [if_pos hlt, if_pos (hpos.mpr hlt)]
        refine ⟨_, rfl, hbuf, ?_⟩
        show e.shellLen - 1 = ((s.shellLen - 1 : ℕ) : ℤ)
        omega
      · rw [if_neg hlt, if_neg (mt hpos.mp hlt)]
        exact ⟨s, rfl, hbuf, hlen⟩
    · rw [if_neg hback, if_neg hback]
      by_cases hlt : s.shellLen < shellBufferSize - 1
      · rw [if_pos hlt, if_pos (hfull.mpr hlt), storeChar_of_lt hroom, Outcome.ok_bind]
        refine ⟨_, rfl, hstored c, ?_⟩
        show e.shellLen + 1 = ((s.shellLen + 1 : ℕ) : ℤ)
        omega
      · rw [if_neg hlt, if_neg (mt hfull.mp hlt)]
        exact ⟨s, rfl, hbuf, hlen⟩
  · intro henter
    refine ⟨{ s with shellBuf := Function.update s.shellBuf s.shellLen 0 }.say "\r\n", rfl, ?_⟩
    rw [shellHandleChar, if_pos henter, storeChar_of_lt hroom, Outcome.ok_bind, hstored]
    rfl

end MasterOS.Console
