/-
# Files made and shown at the shell

`create` prints nothing, whether its write succeeds or not, so only a later `type` tells.
Whatever lines come between the two, as long as none of them touches the file or removes a
directory, `type` prints the text that `create` was given, or finds no file. It never prints
anything else.
-/

import MasterOS.Console.OnDisk

namespace MasterOS.Console

open MasterOS.Device MasterOS.Device.Prog MasterOS.Math
open MasterOS.Fat (CString Driver Disk Sector FatProg Op System Files Stands Valid83 bytesOf
  readReply codeReply)

/-! ## Words of a line -/

/-- The word in front of a space comes through `k_first_word` when it is short. -/
theorem kFirstWord_of_word {array : CharArray} (hsize : array.size = 32) (dst : Chars)
    {word rest : List UInt8} (hword : ∀ c ∈ word, c ≠ 0x20) (hlength : word.length ≤ 31)
    (hnoNul : ∀ c ∈ word ++ 0x20 :: rest, c ≠ 0) :
    (kFirstWord array (word ++ 0x20 :: rest) dst 32).Gives fun a =>
      Spells a 0 word ∧ readString array a = .ok word := by
  have hcut : cutWord (word ++ 0x20 :: rest) 31 = word := by
    rw [cutWord, List.takeWhile_append_of_pos fun c hc => by simpa using hword c hc,
      List.takeWhile_cons_of_neg (by simp), List.append_nil, List.take_of_length_le hlength]
  have hgives := @kFirstWord_gives array _ dst hsize hnoNul
  rwa [hcut] at hgives

/-- The command of a line that starts with a short word. -/
theorem lineCommand_eq (w : World) {verb rest : List UInt8} (hverb : ∀ c ∈ verb, c ≠ 0x20)
    (hlength : verb.length ≤ 31) (hnoNul : ∀ c ∈ verb ++ 0x20 :: rest, c ≠ 0) :
    lineCommand w (verb ++ 0x20 :: rest) = commandOf verb := by
  obtain ⟨a, hword, hspells, -⟩ := @kFirstWord_of_word .verb rfl w.stack _ rest hverb hlength hnoNul
  rw [lineCommand_of_word (by simp) hword]
  exact findCommand_eq (fun c hc => hnoNul c (List.mem_append_left _ hc)) hspells

/-- What such a line does. -/
theorem shellExecute_eq (w : World) (s : Shell) {verb rest : List UInt8} {command : Command}
    (hverb : ∀ c ∈ verb, c ≠ 0x20) (hlength : verb.length ≤ 31)
    (hnoNul : ∀ c ∈ verb ++ 0x20 :: rest, c ≠ 0) (hcommand : commandOf verb = some command)
    (hrest : rest ≠ []) :
    shellExecute w (verb ++ 0x20 :: rest) s = command.exec w (some rest) s := by
  obtain ⟨a, hword, hspells, -⟩ := @kFirstWord_of_word .verb rfl w.stack _ rest hverb hlength hnoNul
  have hfind : findCommand a = some command :=
    (findCommand_eq (fun c hc => hnoNul c (List.mem_append_left _ hc)) hspells).trans hcommand
  rw [shellExecute, if_neg (by simp), hword, Outcome.ok_bind]
  dsimp only
  rw [hfind, kArg_append hverb hrest]

/-- A valid name and what stands behind it come through as they are. -/
theorem twoWords_valid {array : CharArray} (hsize : array.size = 32) (stack : Chars)
    {name : CString} (hname : Valid83 name) {rest : List UInt8} (hrest : rest ≠ [])
    (hnoNul : ∀ c ∈ rest, c ≠ 0) :
    twoWords array stack (some (name.chars ++ 0x20 :: rest)) = some (name.chars, rest) := by
  obtain ⟨hstorable, hfits⟩ := hname.fits
  have hlength : name.chars.length ≤ 31 := by
    unfold Fat.Fits83 at hfits
    omega
  have hall : ∀ c ∈ name.chars ++ 0x20 :: rest, c ≠ 0 := by
    intro c hc
    rcases List.mem_append.mp hc with hc | hc
    · exact name.noNul c hc
    · rcases List.mem_cons.mp hc with rfl | hc
      · decide
      · exact hnoNul c hc
  obtain ⟨a, hword, -, hread⟩ := kFirstWord_of_word hsize stack hstorable.noSpace hlength hall
  rw [twoWords, hword]
  dsimp only
  rw [kArg_append hstorable.noSpace hrest, hread]

/-! ## The lines -/

/-- `create` with a name and a text. -/
def createLine (name : CString) (context : List UInt8) : List UInt8 :=
  text "create" ++ 0x20 :: (name.chars ++ 0x20 :: context)

/-- `type` with a name. -/
def typeLine (name : CString) : List UInt8 := text "type" ++ 0x20 :: name.chars

theorem createLine_noNul {name : CString} {context : List UInt8} (hnoNul : ∀ c ∈ context, c ≠ 0) :
    ∀ c ∈ createLine name context, c ≠ 0 := by
  have hverb : ∀ c ∈ text "create", c ≠ 0 := by decide +kernel
  intro c hc
  simp only [createLine, List.mem_append, List.mem_cons] at hc
  rcases hc with hc | rfl | hc | rfl | hc
  · exact hverb c hc
  · decide
  · exact name.noNul c hc
  · decide
  · exact hnoNul c hc

theorem typeLine_noNul (name : CString) : ∀ c ∈ typeLine name, c ≠ 0 := by
  have hverb : ∀ c ∈ text "type", c ≠ 0 := by decide +kernel
  intro c hc
  simp only [typeLine, List.mem_append, List.mem_cons] at hc
  rcases hc with hc | rfl | hc
  · exact hverb c hc
  · decide
  · exact name.noNul c hc

theorem chars_ne_nil_of_valid83 {name : CString} (h : Valid83 name) : name.chars ≠ [] := by
  obtain ⟨base, ext, hchars, hpos, -⟩ := h
  intro hnil
  rw [hnil] at hchars
  rw [(List.append_eq_nil_iff.mp hchars.symm).1] at hpos
  exact absurd hpos (by decide)

/-- What `create` does to the store. It prints nothing, and succeeds when the file has a
place. -/
theorem create_step {x y : Shell × System} {F : Files} (h : Mirrors x.2 F) {name : CString}
    (hname : Valid83 name) {context : List UInt8} (hcontext : context ≠ [])
    (hnoNul : ∀ c ∈ context, c ≠ 0) (hstep : DiskStep x (createLine name context) y) :
    ∃ r F', Store.Step F (.write name.key context, codeReply r) F' ∧ Mirrors y.2 F' ∧
      (Fat.HasPlace x.2 name context.length → r = 0) := by
  cases hstep with
  | @line s s' st st' d fuel w fileBuf _ writes hfine hreturns =>
      have hready : Fat.Ready st d := h.stands.ready
      have hwords : twoWords .filename w.stack (some (name.chars ++ 0x20 :: context)) =
          some (name.chars, context) := twoWords_valid rfl w.stack hname hcontext hnoNul
      have hall : ∀ c ∈ createLine name context, c ≠ 0 := createLine_noNul hnoNul
      obtain ⟨verb, hverb, hspells, -⟩ := @kFirstWord_of_word .verb rfl w.stack (text "create")
        (name.chars ++ 0x20 :: context) (by decide +kernel) (by decide +kernel) hall
      have hfind : findCommand verb = some .create := by
        rw [findCommand_eq (by decide +kernel) hspells]
        decide
      have hcommand : lineCommand w (createLine name context) = some .create :=
        (lineCommand_of_word (by simp) hverb).trans hfind
      have harg : kArg (createLine name context) = some (name.chars ++ 0x20 :: context) :=
        kArg_append (by decide +kernel) (by simp)
      have hwrite := hfine .create hcommand
      rw [harg] at hwrite
      have hregular := hwrite name.chars context hwords
      rw [shellExecuteOn, if_neg (by simp [createLine]), createLine, hverb] at hreturns
      dsimp only at hreturns
      rw [hfind, ← createLine, harg] at hreturns
      dsimp only [Command.execOn] at hreturns
      rw [askTwoOn, hwords] at hreturns
      obtain ⟨⟨r, st₁⟩, first, last, hcall, hrest, rfl⟩ := returns_bind_iff.mp hreturns
      injection hrest with hvalue hnil
      injection hvalue with hvalue
      obtain ⟨-, rfl⟩ := Prod.mk.inj hvalue
      subst hnil
      rw [List.append_nil]
      rw [cString_chars] at hcall hregular
      obtain ⟨hreg, hnew, hplain⟩ := hregular
      obtain ⟨F', hwritten, hF'⟩ := h.served (.call _ hreg hnew hplain hcall)
      rw [Op.request, bytesOf_getD] at hwritten
      exact ⟨r, F', hwritten, hF', fun hplace => hplace.done hready hreg.1 hcall⟩

/-! ## What is shown -/

/-- A line that leaves a file alone, whatever it is answered. -/
def LeavesFile (name : CString) (cmd : List UInt8) : Prop :=
  ∀ w, ∀ label ∈ lineAsked w cmd, Store.Spares name.key label.1

/-- What `type` prints of a file. -/
def showFile (content : List UInt8) (s : Shell) : Shell :=
  (content.foldl typeByte s).say "\r\n"

/-- What `type` prints when it finds no file. -/
def showMissing (name : List UInt8) (s : Shell) : Shell :=
  ((s.say "File not found: ").print name).say "\r\n"

/-- What `type` prints by the answer to its read. -/
theorem cmdType_eq (w : World) (name : List UInt8) (s : Shell) :
    cmdType w (some name) s =
      match readReply (w.fatRead name).1 (w.fatRead name).2 with
      | .content delivered => showFile delivered s
      | _ => showMissing name s := by
  rw [cmdType, readReply]
  rcases w.fatRead name with ⟨bytes, fileBuf⟩
  dsimp only
  split_ifs
  · rfl
  · dsimp only
    rw [showFile, bytesOf, List.foldl_map]

/-- A line that leaves a file alone keeps it, and makes no file where there is none. -/
theorem StoreStep.keeps {x y : Shell × Files} {cmd : List UInt8} (h : StoreStep x cmd y)
    {name : CString} (hleaves : LeavesFile name cmd) {dir : ℕ} :
    (∀ content, Store.HoldsFile dir name.key content x.2 →
      Store.HoldsFile dir name.key content y.2) ∧
    ((∀ content, x.2.tree dir name.key ≠ some (.file content)) →
      ∀ content, y.2.tree dir name.key ≠ some (.file content)) := by
  obtain ⟨w, -, htrace, -⟩ := h
  exact ⟨fun content hfile => Store.file_stays htrace (hleaves w) hfile,
    fun hnone => Store.noFile_stays htrace (hleaves w) hnone⟩

/-- `type` shows the file of a name, or that there is none. -/
theorem type_step {x y : Shell × Files} {name : CString} (hname : Valid83 name)
    (h : StoreStep x (typeLine name) y) :
    (∃ content, x.2.here name.key = some (.file content) ∧
        y.1 = showFile (content.take fileBufSize) x.1) ∨
      ¬ x.2.HasFile name.key ∧ y.1 = showMissing name.chars x.1 := by
  obtain ⟨s, F⟩ := x
  obtain ⟨s', F'⟩ := y
  obtain ⟨w, hexec, htrace, -⟩ := h
  have hcommand : commandOf (text "type") = some .type := by decide
  have hall := typeLine_noNul name
  have hword : ∀ c ∈ text "type", c ≠ 0x20 := by decide +kernel
  have hlength : (text "type").length ≤ 31 := by decide
  have hlabels : lineAsked w (typeLine name) = [(.read name.key fileBufSize,
      readReply (w.fatRead name.chars).1 (w.fatRead name.chars).2)] := by
    rw [lineAsked, typeLine, lineCommand_eq w hword hlength hall, hcommand]
    dsimp only
    rw [kArg_append hword (chars_ne_nil_of_valid83 hname), Command.asked, keyOf, cString_chars]
  rw [typeLine, shellExecute_eq w s hword hlength hall hcommand (chars_ne_nil_of_valid83 hname),
    Command.exec, cmdType_eq] at hexec
  have hshown := (Except.ok.inj hexec).symm
  rw [hlabels] at htrace
  cases htrace with
  | cons hstep hrest =>
      cases hrest
      generalize readReply (w.fatRead name.chars).1 (w.fatRead name.chars).2 = reply at hstep hshown
      cases hstep with
      | delivered hfile => exact Or.inl ⟨_, hfile, hshown⟩
      | notDelivered hnone => exact Or.inr ⟨hnone, hshown⟩

/-- **What is created is what is shown.** Between a `create` and a `type` of one name in one
directory come any lines that leave the file alone. Then `type` shows the text that was
created, as far as its buffer goes, or finds no file; and it shows the text when the file had
a place on the disk. -/
theorem type_shows_created {x x₁ x₂ x₃ : Shell × System} {F : Files} (hF : Mirrors x.2 F)
    {name : CString} (hname : Valid83 name) {context : List UInt8} (hcontext : context ≠ [])
    (hnoNul : ∀ c ∈ context, c ≠ 0) (hcreate : DiskStep x (createLine name context) x₁)
    {lines : List (List UInt8)} (hlines : Trace DiskStep x₁ lines x₂)
    (hleaves : ∀ cmd ∈ lines, LeavesFile name cmd)
    (hback : x₂.2.driver.currentDirCluster = x.2.driver.currentDirCluster)
    (htype : DiskStep x₂ (typeLine name) x₃) :
    (x₃.1 = showFile (context.take fileBufSize) x₂.1 ∨ x₃.1 = showMissing name.chars x₂.1) ∧
      (Fat.HasPlace x.2 name context.length →
        x₃.1 = showFile (context.take fileBufSize) x₂.1) := by
  obtain ⟨r, F₁, hwritten, hF₁, hplace⟩ := create_step hF hname hcontext hnoNul hcreate
  obtain ⟨⟨s₂, F₂⟩, hsession, rfl, hF₂⟩ :=
    simulates_storeStep.trace (a := (x₁.1, F₁)) ⟨rfl, hF₁⟩ hlines
  obtain ⟨⟨s₃, F₃⟩, hstep, rfl, -⟩ := simulates_storeStep x₂ (x₂.1, F₂) _ x₃ ⟨rfl, hF₂⟩ htype
  have hhome : F₂.cwd = F.cwd := (hF₂.stands.cwd.trans hback).trans hF.stands.cwd.symm
  have hkeeps (I : Files → Prop) (hI : ∀ x y cmd, LeavesFile name cmd → I x.2 →
      StoreStep x cmd y → I y.2) (h : I F₁) : I F₂ :=
    hsession.keeps_of_labels (fun x => I x.2) (LeavesFile name)
      (fun x cmd y hquiet hx hxy => hI x y cmd hquiet hx hxy) hleaves h
  have hshown := type_step hname hstep
  -- a file that was written is still there
  have hdone (hr : codeReply r = .done) : x₃.1 = showFile (context.take fileBufSize) x₂.1 := by
    have hfile : Store.HoldsFile F.cwd name.key context F₁ := by
      rw [hr] at hwritten
      have hreach : F.Reach F.cwd := hF.stands.cwd ▸ hF.stands.reach_iff.mpr hF.stands.ready.cwd
      refine ⟨hwritten.reach trivial hreach, ?_⟩
      cases hwritten with
      | written hnot => rw [Store.set_tree, if_pos ⟨rfl, rfl⟩]
    have hfile₂ := hkeeps (Store.HoldsFile F.cwd name.key context)
      (fun x y cmd hquiet hx hxy => (hxy.keeps hquiet).1 context hx) hfile
    have hhere : F₂.here name.key = some (.file context) := by
      rw [Store.here, hhome]
      exact hfile₂.2
    rcases hshown with ⟨content, hcontent, hshow⟩ | ⟨hnone, -⟩
    · obtain rfl := Node.file.inj (Option.some.inj (hcontent.symm.trans hhere))
      exact hshow
    · exact absurd ⟨context, hhere⟩ hnone
  constructor
  · rcases hcode : codeReply r with _ | _ | _
    · exact Or.inl (hdone hcode)
    · -- the old file is gone, and no other takes its place
      rw [hcode] at hwritten
      have hnone : ∀ content, F₁.tree F.cwd name.key ≠ some (.file content) := by
        intro content hfile
        cases hwritten with
        | notWritten =>
            refine F.not_hasFile_dropFile name.key ⟨content, ?_⟩
            rw [Store.here, Store.dropFile_cwd]
            exact hfile
      have hnone₂ := hkeeps (fun G => ∀ content, G.tree F.cwd name.key ≠ some (.file content))
        (fun x y cmd hquiet hx hxy => (hxy.keeps hquiet).2 hx) hnone
      rcases hshown with ⟨content, hcontent, -⟩ | ⟨-, hshow⟩
      · rw [Store.here, hhome] at hcontent
        exact absurd hcontent (hnone₂ content)
      · exact Or.inr hshow
    · rw [hcode] at hwritten
      cases hwritten
  · intro hhas
    rw [hplace hhas] at hdone
    exact hdone rfl

theorem hasPlace_blank : Fat.HasPlace Fat.blankSystem Fat.nameA 1 := by
  have hend : Fat.freeVerdict (Fat.entryAt Fat.blank (2, 0)) = .take :=
    Fat.freeVerdict_eq_take_iff.mpr (Or.inl (Fat.entryAt_blank _).1)
  obtain ⟨n, loc, -, hfirst⟩ := Fat.exists_firstTake (n := 0)
    (show Fat.slotAt Fat.smallMount (Fat.fatAt Fat.smallMount Fat.blank) 0 0 = some (2, 0) from rfl)
    hend fun k hk => absurd hk (Nat.not_lt_zero k)
  exact ⟨Fat.fits_nameA, Or.inl ⟨loc, n, hfirst⟩⟩

/-- On a blank volume the text of a file is shown. -/
theorem type_shows_created_blank : ∃ x₁ x₂ x₃,
    DiskStep blankShell (createLine Fat.nameA [0x78]) x₁ ∧
    Trace DiskStep x₁ [text "cd .."] x₂ ∧ DiskStep x₂ (typeLine Fat.nameA) x₃ ∧
    x₃.1 = showFile [0x78] x₂.1 := by
  obtain ⟨x₁, x₂, x₃, hcreate, hup, htype, hcwd⟩ := session_blank
  refine ⟨x₁, x₂, x₃, hcreate, hup, htype, ?_⟩
  have hleaves : ∀ cmd ∈ [text "cd .."], LeavesFile Fat.nameA cmd := by
    intro cmd hcmd w label hlabel
    rw [List.mem_singleton.mp hcmd, show text "cd .." = text "cd" ++ 0x20 :: [0x2E, 0x2E] from rfl,
      lineAsked, lineCommand_eq w (by decide +kernel) (by decide +kernel) (by decide +kernel),
      show commandOf (text "cd") = some .cd by decide] at hlabel
    obtain rfl := List.mem_singleton.mp hlabel
    trivial
  have hnoNul : ∀ c ∈ ([0x78] : List UInt8), c ≠ 0 := by decide +kernel
  exact (type_shows_created mirrors_blank Fat.valid83_nameA (by simp) hnoNul hcreate hup hleaves
    hcwd htype).2 hasPlace_blank

end MasterOS.Console
