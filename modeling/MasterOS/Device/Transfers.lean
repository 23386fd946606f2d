/-
# Sectors through the ports

Over a drive whose work is done in time the two waits end, and the words that pass are those
of the sectors. So `ata_read` delivers what the drive holds and `ata_write` changes just the
sectors it is given; both return -1 when a sector is not there.
-/

import MasterOS.Device.Bus

namespace MasterOS.Pio

open MasterOS.Device MasterOS.Device.PortProg
open MasterOS.Ata (Bsy Drq Err ataData ataError ataSectorCount ataLbaLow ataLbaMid ataLbaHigh
  ataDriveHead ataCommand ataCmdReadPio ataCmdWritePio ataCmdCacheFlush ataMaster ataSlave
  sectorWords setUp setUpRead)
open MasterOS.Fat (Sector byte_or_shift)

/-! ## Polls -/

section Polls

variable {t : Timing} {b : Bus} {p : Platter}

theorem bsy_or (n : UInt8) : Bsy (0x80 ||| n) := by
  have hall : ∀ k < 256, (0x80 : UInt8) ||| UInt8.ofNat k ≠ 0 ∧
      ((0x80 : UInt8) ||| UInt8.ofNat k) &&& 0x80 ≠ 0 := by decide +kernel
  rw [← UInt8.ofNat_toNat (x := n)]
  exact (hall n.toNat n.toNat_lt).2

/-- A drive that is there shows `BSY` as long as it is busy. -/
theorem bsy_status_iff (hp : b.selected = some p) : Bsy (b.status t) ↔ 0 < b.busy := by
  rw [Bus.status, hp]
  dsimp only
  by_cases hbusy : 0 < b.busy
  · rw [if_pos hbusy]
    exact iff_of_true (bsy_or _) hbusy
  · rw [if_neg hbusy]
    refine iff_of_false ?_ hbusy
    split_ifs
    · decide
    · cases b.phase with
      | idle | failed => decide
      | sending | taking => exact (by decide : ¬ Bsy 0x58)

theorem Bus.tick_of_busy (h : 0 < b.busy) : b.tick = { b with busy := b.busy - 1 } := if_pos h

theorem Bus.tick_of_free (h : b.busy = 0) :
    b.tick = { b with busy := 0, quiet := b.quiet - 1 } := by
  rw [tick, if_neg (by omega), ← h]

/-- The wait for `BSY` goes on for as long as the drive is busy. -/
theorem run_waitBsyLoop_bus (hp : b.selected = some p) {timeout : ℕ} (h : b.busy ≤ timeout) :
    (waitBsyLoop timeout).run (busDevice t) b =
      ((timeout : ℤ) - b.busy, { b with busy := 0, quiet := b.quiet - 1 }) := by
  induction timeout generalizing b with
  | zero =>
      have hfree : b.busy = 0 := by omega
      have hready : ¬ Bsy (b.status t) := fun hbsy => by
        have := (bsy_status_iff hp).mp hbsy
        omega
      rw [waitBsyLoop, run_bind, run_inPortB, busDevice_inB, inB_ataStatus, if_neg hready,
        run_ret, b.tick_of_free hfree, hfree]
      rfl
  | succ timeout ih =>
      rw [waitBsyLoop, run_bind, run_inPortB, busDevice_inB, inB_ataStatus]
      by_cases hbusy : 0 < b.busy
      · rw [if_pos ((bsy_status_iff hp).mpr hbusy), b.tick_of_busy hbusy,
          ih (b := { b with busy := b.busy - 1 }) hp (show b.busy - 1 ≤ timeout by omega)]
        refine Prod.ext ?_ rfl
        show (timeout : ℤ) - (b.busy - 1 : ℕ) = (timeout + 1 : ℕ) - b.busy
        omega
      · have hfree : b.busy = 0 := by omega
        rw [if_neg fun hbsy => hbusy ((bsy_status_iff hp).mp hbsy), run_ret,
          b.tick_of_free hfree, hfree]
        refine Prod.ext ?_ rfl
        show (timeout : ℤ) + 1 = (timeout + 1 : ℕ) - (0 : ℕ)
        omega

/-- A drive that gets ready in time ends the wait for `BSY`. -/
theorem run_ataWaitBsy_bus (hp : b.selected = some p) (h : b.busy < 100000) :
    ataWaitBsy.run (busDevice t) b = (0, { b with busy := 0, quiet := b.quiet - 1 }) := by
  rw [ataWaitBsy, run_bind, run_waitBsyLoop_bus hp h.le, run_ret]
  refine Prod.ext (if_pos ?_) rfl
  show 0 < ((100000 : ℕ) : ℤ) - b.busy
  omega

/-- A drive that is not busy is polled until it is quiet no more. The wait for `DRQ` succeeds
when the drive asks for data then, and fails on an error. -/
theorem run_waitDrqLoop_bus (hp : b.selected = some p) (hfree : b.busy = 0) {timeout : ℕ}
    (h : b.quiet < timeout) {r : ℤ}
    (hphase : r = 0 ∧ b.phase.status = 0x58 ∨ r = -1 ∧ b.phase.status = 0x51) :
    (waitDrqLoop timeout).run (busDevice t) b = (r, { b with busy := 0, quiet := 0 }) := by
  induction timeout generalizing b with
  | zero => omega
  | succ timeout ih =>
      have hstatus : b.status t = if 0 < b.quiet then 0x50 else b.phase.status := by
        rw [Bus.status, hp]
        exact if_neg (by omega)
      rw [waitDrqLoop, run_bind, run_inPortB, busDevice_inB, inB_ataStatus, hstatus,
        b.tick_of_free hfree]
      by_cases hquiet : 0 < b.quiet
      · rw [if_pos hquiet]
        dsimp only
        rw [if_neg (by decide), if_neg (by decide)]
        exact ih (b := { b with busy := 0, quiet := b.quiet - 1 }) hp rfl
          (show b.quiet - 1 < timeout by omega) hphase
      · rw [if_neg hquiet]
        have hzero : b.quiet - 1 = 0 := by omega
        rcases hphase with ⟨rfl, hdata⟩ | ⟨rfl, hfailed⟩
        · rw [hdata]
          dsimp only
          rw [if_neg (by decide), if_pos (by decide), run_ret, hzero]
        · rw [hfailed]
          dsimp only
          rw [if_pos (by decide), run_ret, hzero]

end Polls

/-! ## Words -/

/-- The two bytes of a word. -/
theorem bytes_of_word (low high : UInt8) :
    (low.toUInt16 ||| high.toUInt16 <<< 8).toUInt8 = low ∧
      ((low.toUInt16 ||| high.toUInt16 <<< 8) >>> 8).toUInt8 = high := by
  have hlow := low.toNat_lt
  have hhigh := high.toNat_lt
  have hshift : (high.toUInt16 <<< 8).toNat = high.toNat <<< 8 := by
    rw [UInt16.toNat_shiftLeft, UInt8.toNat_toUInt16]
    exact Nat.mod_eq_of_lt (by rw [Nat.shiftLeft_eq]; show _ * 2 ^ 8 < _; omega)
  have hword : (low.toUInt16 ||| high.toUInt16 <<< 8).toNat = low.toNat + 256 * high.toNat := by
    rw [UInt16.toNat_or, hshift, UInt8.toNat_toUInt16, byte_or_shift]
  constructor
  · apply UInt8.toNat_inj.mp
    rw [UInt16.toNat_toUInt8, hword]
    omega
  · apply UInt8.toNat_inj.mp
    rw [UInt16.toNat_toUInt8, UInt16.toNat_shiftRight, hword, Nat.shiftRight_eq_div_pow]
    show (low.toNat + 256 * high.toNat) / 2 ^ 8 % 2 ^ 8 = high.toNat
    omega

/-- The words of a sector of the buffer make up that sector. -/
theorem ofWords_sectorWords (buf : ℕ → UInt8) (s : ℕ) :
    ofWords (sectorWords buf s) = .ofBytes fun k => buf (s * 512 + k) := by
  refine Sector.ext_byte fun k hk => ?_
  have hword : (sectorWords buf s).getD (k / 2) 0 =
      (buf (s * 512 + 2 * (k / 2))).toUInt16 |||
        (buf (s * 512 + 2 * (k / 2) + 1)).toUInt16 <<< 8 := by
    have hindex : k / 2 < 256 := by omega
    rw [sectorWords, List.getD_eq_getElem?_getD, List.getElem?_map, List.getElem?_range hindex,
      Option.map_some, Option.getD_some]
  rw [ofWords, Sector.byte_ofBytes _ hk, Sector.byte_ofBytes _ hk, hword]
  obtain ⟨hlow, hhigh⟩ := bytes_of_word (buf (s * 512 + 2 * (k / 2)))
    (buf (s * 512 + 2 * (k / 2) + 1))
  by_cases heven : k % 2 = 0
  · rw [if_pos heven, hlow]
    exact congrArg buf (by omega : s * 512 + 2 * (k / 2) = s * 512 + k)
  · rw [if_neg heven, hhigh]
    exact congrArg buf (by omega : s * 512 + 2 * (k / 2) + 1 = s * 512 + k)

/-- A word of a sector is stored as two bytes of it. -/
theorem storeWord_sectorWord (buf : ℕ → UInt8) (sector : Sector) (o i : ℕ) :
    storeWord buf (o + 2 * i) (sectorWord sector i) = fun k =>
      if o + 2 * i ≤ k ∧ k < o + 2 * i + 2 then sector.byte (k - o) else buf k := by
  obtain ⟨hlow, hhigh⟩ := bytes_of_word (sector.byte (2 * i)) (sector.byte (2 * i + 1))
  funext k
  rw [storeWord, sectorWord, hlow, hhigh]
  by_cases hfirst : k = o + 2 * i
  · rw [if_pos hfirst, if_pos (by omega), hfirst, Nat.add_sub_cancel_left]
  · rw [if_neg hfirst]
    by_cases hsecond : k = o + 2 * i + 1
    · rw [if_pos hsecond, if_pos (by omega), hsecond, Nat.add_assoc, Nat.add_sub_cancel_left]
    · rw [if_neg hsecond, if_neg (by omega)]

section Words

variable {t : Timing} {b : Bus} {p : Platter}

/-- The drive sends the words of a sector, and goes on to the next. -/
theorem run_readWords_bus (hp : b.selected = some p) (hasks : b.Asks) (s : ℕ) {lba left i n : ℕ}
    (hphase : b.phase = .sending lba left i) (hn : 0 < n) (hi : i + n = 256) (buf : ℕ → UInt8) :
    (readWords s n i buf).run (busDevice t) b =
      (fun k => if s * 512 + 2 * i ≤ k ∧ k < s * 512 + 512 then
          (p.content lba).byte (k - s * 512) else buf k,
        b.work t (sendFrom p.size (lba + 1) (left - 1))) := by
  induction n generalizing b i buf with
  | zero => omega
  | succ n ih =>
      have hsend : b.inW t ataData = (sectorWord (p.content lba) i,
          if i + 1 = 256 then b.work t (sendFrom p.size (lba + 1) (left - 1))
          else { b with phase := .sending lba left (i + 1) }) := by
        rw [Bus.inW, if_pos ⟨rfl, hasks⟩, Bus.send, hp, hphase]
      rw [readWords, run_bind, run_inPortW, busDevice_inW, hsend]
      dsimp only
      rw [storeWord_sectorWord]
      by_cases hlast : i + 1 = 256
      · obtain rfl : n = 0 := by omega
        rw [if_pos hlast, readWords, run_ret]
        refine Prod.ext (funext fun k => ?_) rfl
        exact if_congr (by omega) rfl rfl
      · rw [if_neg hlast, ih (b := { b with phase := .sending lba left (i + 1) }) hp hasks rfl
          (by omega) (by omega)]
        refine Prod.ext (funext fun k => ?_) rfl
        dsimp only
        by_cases hlater : s * 512 + 2 * (i + 1) ≤ k ∧ k < s * 512 + 512
        · rw [if_pos hlater, if_pos (by omega)]
        · rw [if_neg hlater]
          exact if_congr (by omega) rfl rfl

/-- The drive takes words up to the last one of a sector. -/
theorem run_writeWords_bus (hp : b.selected = some p) (hasks : b.Asks) {lba left : ℕ}
    {before words : List UInt16} (hphase : b.phase = .taking lba left before)
    (hwords : words ≠ []) (hlength : before.length + words.length = 256) :
    (writeWords words).run (busDevice t) b =
      ((), b.keep t p lba left (ofWords (before ++ words))) := by
  induction words generalizing b before with
  | nil => exact absurd rfl hwords
  | cons word rest ih =>
      rw [List.length_cons] at hlength
      have htake : b.outW t ataData word =
          if before.length + 1 = 256 then b.keep t p lba left (ofWords (before ++ [word]))
          else { b with phase := .taking lba left (before ++ [word]) } := by
        rw [Bus.outW, if_pos ⟨rfl, hasks⟩, Bus.take, hp, hphase]
      rw [writeWords, run_bind, run_outPortW, busDevice_outW, htake]
      by_cases hlast : before.length + 1 = 256
      · obtain rfl : rest = [] := List.eq_nil_of_length_eq_zero (by omega)
        rw [if_pos hlast, writeWords, run_ret]
      · have hrest : rest ≠ [] := by
          rintro rfl
          rw [List.length_nil] at hlength
          omega
        rw [if_neg hlast, ih (b := { b with phase := .taking lba left (before ++ [word]) }) hp
          hasks rfl hrest (by rw [List.length_append, List.length_singleton]; omega),
          List.append_assoc]
        rfl

end Words

/-! ## Sectors -/

/-- The selected drive goes on to a phase in time. -/
structure Working (p : Platter) (phase : Phase) (b : Bus) : Prop where
  selected : b.selected = some p
  phase : b.phase = phase
  busy : b.busy < 100000
  quiet : b.quiet < 100000

/-- What is true of the bus once the selected drive has done its work. -/
structure Rests (b : Bus) : Prop where
  phase : b.phase = .idle ∨ b.phase = .failed
  busy : b.busy < 100000

section Sectors

variable {t : Timing} {b : Bus} {p : Platter} {phase : Phase}

theorem Working.work (htimely : Timely t) (hp : b.selected = some p) :
    Working p phase (b.work t phase) :=
  ⟨hp, rfl, (htimely b.begun).1, (htimely b.begun).2⟩

/-- The two waits before a sector. -/
theorem Working.waits (h : Working p phase b) {r : ℤ}
    (hphase : r = 0 ∧ phase.status = 0x58 ∨ r = -1 ∧ phase.status = 0x51) :
    ataWaitBsy.run (busDevice t) b = (0, { b with busy := 0, quiet := b.quiet - 1 }) ∧
      ataWaitDrq.run (busDevice t) { b with busy := 0, quiet := b.quiet - 1 } =
        (r, { b with busy := 0, quiet := 0 }) := by
  have hquiet : b.quiet - 1 < 100000 := by
    have := h.quiet
    omega
  rw [← h.phase] at hphase
  exact ⟨run_ataWaitBsy_bus h.selected h.busy,
    run_waitDrqLoop_bus (b := { b with busy := 0, quiet := b.quiet - 1 }) h.selected rfl hquiet
      hphase⟩

/-- The sectors of a read, up to the first that is not there. -/
theorem run_readLoop_bus (htimely : Timely t) {lba left : ℕ} (s : ℕ)
    (h : Working p (sendFrom p.size lba left) b) (hlba : lba ≤ p.size ∨ 0 < left)
    (buf : ℕ → UInt8) : ∃ out b', (readLoop left s buf).run (busDevice t) b =
      ((if lba + left ≤ p.size then 0 else -1, out), b') ∧
      b'.drives = b.drives ∧ b'.registers = b.registers ∧ Rests b' ∧
      (lba + left ≤ p.size → ∀ k, out k =
        if 512 * s ≤ k ∧ k < 512 * (s + left) then
          (p.content (lba + (k / 512 - s))).byte (k % 512) else buf k) := by
  induction left generalizing b s lba buf with
  | zero =>
      rw [if_pos (by omega)]
      refine ⟨buf, b, rfl, rfl, rfl, ⟨Or.inl h.phase, h.busy⟩, fun _ k => ?_⟩
      rw [if_neg (by omega)]
  | succ left ih =>
      rw [readLoop]
      by_cases hthere : lba < p.size
      · have hphase : sendFrom p.size lba (left + 1) = .sending lba (left + 1) 0 := by
          rw [sendFrom, if_neg (by omega), if_pos hthere]
        rw [hphase] at h
        obtain ⟨hbsy, hdrq⟩ := h.waits (t := t) (Or.inl ⟨rfl, rfl⟩)
        have hwords := run_readWords_bus (t := t) (b := { b with busy := 0, quiet := 0 })
          h.selected ⟨rfl, rfl⟩ s h.phase (by omega : 0 < 256) rfl buf
        obtain ⟨out, b', hrun, hdrives, hregisters, hrests, hout⟩ := ih (s + 1)
          (Working.work htimely (b := { b with busy := 0, quiet := 0 }) h.selected)
          (Or.inl hthere) (fun k => if s * 512 + 2 * 0 ≤ k ∧ k < s * 512 + 512 then
            (p.content lba).byte (k - s * 512) else buf k)
        rw [run_bind_of_run _ _ hbsy, if_neg (by decide), run_bind_of_run _ _ hdrq,
          if_neg (by decide), run_bind_of_run _ _ hwords, Nat.add_sub_cancel, hrun]
        refine ⟨out, b', ?_, hdrives, hregisters, hrests, fun hle k => ?_⟩
        · refine Prod.ext (Prod.ext ?_ rfl) rfl
          exact if_congr (by omega) rfl rfl
        · rw [hout (by omega) k]
          by_cases hlater : 512 * (s + 1) ≤ k ∧ k < 512 * (s + 1 + left)
          · rw [if_pos hlater, if_pos (by omega)]
            congr 2
            omega
          · rw [if_neg hlater]
            by_cases hfirst : s * 512 + 2 * 0 ≤ k ∧ k < s * 512 + 512
            · have hall : 512 * s ≤ k ∧ k < 512 * (s + (left + 1)) := by omega
              have hsector : lba + (k / 512 - s) = lba := by omega
              have hbyte : k - s * 512 = k % 512 := by omega
              rw [if_pos hfirst, if_pos hall, hsector, hbyte]
            · have hnone : ¬ (512 * s ≤ k ∧ k < 512 * (s + (left + 1))) := by omega
              rw [if_neg hfirst, if_neg hnone]
      · have hphase : sendFrom p.size lba (left + 1) = .failed := by
          rw [sendFrom, if_neg (by omega), if_neg hthere]
        rw [hphase] at h
        obtain ⟨hbsy, hdrq⟩ := h.waits (t := t) (Or.inr ⟨rfl, rfl⟩)
        rw [run_bind_of_run _ _ hbsy, if_neg (by decide), run_bind_of_run _ _ hdrq,
          if_pos (by decide), run_ret, if_neg (by omega)]
        exact ⟨buf, _, rfl, rfl, rfl, ⟨Or.inr h.phase, Nat.zero_lt_succ _⟩, fun hle => by omega⟩

/-- The flush after a sector is not heard by a drive that is busy or wants more. -/
theorem Working.flushed (htimely : Timely t) (h : Working p phase b) :
    ∃ phase', Working p phase' (b.outB t ataCommand ataCmdCacheFlush) ∧
      (phase' = phase ∨ phase' = .idle) ∧ (phase.status = 0x58 → phase' = phase) ∧
      (b.outB t ataCommand ataCmdCacheFlush).drives = b.drives ∧
      (b.outB t ataCommand ataCmdCacheFlush).registers = b.registers := by
  by_cases hlistens : b.Listens
  · have hout : b.outB t ataCommand ataCmdCacheFlush = b.work t .idle := by
      rw [Bus.outB, if_pos hlistens, if_pos rfl, Bus.command, h.selected]
      exact (if_neg (by decide)).trans ((if_neg (by decide)).trans (if_pos rfl))
    rw [hout]
    refine ⟨.idle, .work htimely h.selected, Or.inr rfl, fun hdata => ?_, rfl, rfl⟩
    rw [← h.phase] at hdata
    rcases hlistens.2 with hidle | hfailed
    · rw [hidle] at hdata
      exact absurd hdata (by decide)
    · rw [hfailed] at hdata
      exact absurd hdata (by decide)
  · rw [Bus.outB, if_neg hlistens]
    exact ⟨phase, h, Or.inl rfl, fun _ => rfl, rfl, rfl⟩

/-- A sector of a write, with the flush after it. -/
theorem run_writeLoop_sector (htimely : Timely t) {lba left : ℕ}
    (h : Working p (.taking lba left []) b) (buf : ℕ → UInt8) (n s : ℕ) {b₁ : Bus} {p' : Platter}
    (hkeep : ({ b with busy := 0, quiet := 0 } : Bus).keep t p lba left
      (.ofBytes fun k => buf (s * 512 + k)) = b₁) (hnext : Working p' phase b₁) :
    ∃ b' phase', (writeLoop buf (n + 1) s).run (busDevice t) b =
        (writeLoop buf n (s + 1)).run (busDevice t) b' ∧ Working p' phase' b' ∧
      (phase' = phase ∨ phase' = .idle) ∧ (phase.status = 0x58 → phase' = phase) ∧
      b'.drives = b₁.drives ∧ b'.registers = b₁.registers := by
  obtain ⟨hbsy, hdrq⟩ := h.waits (t := t) (Or.inl ⟨rfl, rfl⟩)
  have hlength : (sectorWords buf s).length = 256 := by
    rw [sectorWords, List.length_map, List.length_range]
  have hwords : sectorWords buf s ≠ [] := fun hnil => by
    rw [hnil] at hlength
    cases hlength
  have htaken := run_writeWords_bus (t := t) (b := { b with busy := 0, quiet := 0 })
    h.selected ⟨rfl, rfl⟩ h.phase hwords ((Nat.zero_add _).trans hlength)
  rw [List.nil_append, ofWords_sectorWords, hkeep] at htaken
  obtain ⟨phase', hflushed, hphase', hdata, hdrives, hregisters⟩ := hnext.flushed htimely
  refine ⟨{ b₁.outB t ataCommand ataCmdCacheFlush with
      busy := 0, quiet := (b₁.outB t ataCommand ataCmdCacheFlush).quiet - 1 }, phase', ?_,
    ⟨hflushed.selected, hflushed.phase, Nat.zero_lt_succ _, ?_⟩, hphase', hdata, hdrives,
    hregisters⟩
  · rw [writeLoop, run_bind_of_run _ _ hbsy, if_neg (by decide), run_bind_of_run _ _ hdrq,
      if_neg (by decide), run_bind_of_run _ _ htaken, run_bind, run_outPortB, busDevice_outB,
      run_bind_of_run _ _ (run_ataWaitBsy_bus hflushed.selected hflushed.busy),
      if_neg (by decide)]
  · have := hflushed.quiet
    show (b₁.outB t ataCommand ataCmdCacheFlush).quiet - 1 < 100000
    omega

/-- Sectors in the buffer are put in place of others. -/
def Platter.putAll (p : Platter) (lba count : ℕ) (buf : ℕ → UInt8) (s : ℕ) : Platter :=
  { p with
    content := fun n =>
      if lba ≤ n ∧ n < lba + count then .ofBytes fun k => buf ((s + (n - lba)) * 512 + k)
      else p.content n }

theorem Platter.putAll_zero (lba : ℕ) (buf : ℕ → UInt8) (s : ℕ) : p.putAll lba 0 buf s = p := by
  rw [putAll]
  congr 1
  funext n
  exact if_neg (by omega)

theorem Platter.putAll_succ (lba count : ℕ) (buf : ℕ → UInt8) (s : ℕ) :
    (p.put lba (.ofBytes fun k => buf (s * 512 + k))).putAll (lba + 1) count buf (s + 1) =
      p.putAll lba (count + 1) buf s := by
  rw [putAll, putAll]
  congr 1
  funext n
  dsimp only [put]
  by_cases hfirst : n = lba
  · have hsector : s + (n - lba) = s := by omega
    rw [if_neg (by omega), if_pos (by omega), hfirst, Function.update_self]
    rw [hfirst] at hsector
    rw [hsector]
  · rw [Function.update_of_ne hfirst]
    by_cases hlater : lba + 1 ≤ n ∧ n < lba + 1 + count
    · have hsector : s + 1 + (n - (lba + 1)) = s + (n - lba) := by omega
      rw [if_pos hlater, if_pos (by omega), hsector]
    · rw [if_neg hlater, if_neg (by omega)]

/-- The sectors of a write, all of which are there. -/
theorem run_writeLoop_bus (htimely : Timely t) (buf : ℕ → UInt8) {lba left : ℕ} (s : ℕ)
    (h : Working p (takeFrom lba left) b) (hfit : lba + left ≤ p.size) :
    ∃ b', (writeLoop buf left s).run (busDevice t) b = (0, b') ∧
      b'.drives = Function.update b.drives b.slave (some (p.putAll lba left buf s)) ∧
      b'.registers = b.registers ∧ Rests b' := by
  induction left generalizing b p s lba with
  | zero =>
      refine ⟨b, rfl, ?_, rfl, Or.inl h.phase, h.busy⟩
      rw [Platter.putAll_zero, ← h.selected]
      exact (Function.update_eq_self _ _).symm
  | succ left ih =>
      have hkeep : ({ b with busy := 0, quiet := 0 } : Bus).keep t p lba (left + 1)
          (.ofBytes fun k => buf (s * 512 + k)) =
            (({ b with busy := 0, quiet := 0 } : Bus).setSelected
              (p.put lba (.ofBytes fun k => buf (s * 512 + k)))).work t
                (takeFrom (lba + 1) left) := if_pos (by omega)
      have hselected : (({ b with busy := 0, quiet := 0 } : Bus).setSelected
          (p.put lba (.ofBytes fun k => buf (s * 512 + k)))).selected =
            some (p.put lba (.ofBytes fun k => buf (s * 512 + k))) := Function.update_self ..
      obtain ⟨b', phase', hrun, hworking, hphase', hdata, hdrives, hregisters⟩ :=
        run_writeLoop_sector htimely h buf left s hkeep (.work htimely hselected)
      have hphase : phase' = takeFrom (lba + 1) left := by
        by_cases hleft : left = 0
        · rw [takeFrom, if_pos hleft] at hphase' ⊢
          exact hphase'.elim id id
        · exact hdata (by rw [takeFrom, if_neg hleft]; rfl)
      rw [hphase] at hworking
      obtain ⟨b'', hrest, hdrives', hregisters', hrests⟩ :=
        ih (s + 1) hworking (show lba + 1 + left ≤ p.size by omega)
      have hslave : b'.slave = b.slave := by
        rw [Bus.slave, hregisters]
        rfl
      refine ⟨b'', hrun.trans hrest, ?_, hregisters'.trans hregisters, hrests⟩
      rw [hdrives', hdrives, hslave, Platter.putAll_succ]
      exact Function.update_idem _ _ _

end Sectors

/-! ## The functions -/

/-- The bit of the head register that selects the slave. -/
def isSlave (head : UInt8) : Bool := head &&& 0x10 ≠ 0

/-- The driver has found a drive there, which has nothing to do or is about to be done. -/
structure Attached (ataDrive : UInt8) (p : Platter) (b : Bus) : Prop where
  drive : ataDrive = ataMaster ∨ ataDrive = ataSlave
  there : b.drives (isSlave ataDrive) = some p
  slave : b.slave = isSlave ataDrive
  rests : Rests b

/-- The registers of an access. -/
def Bus.address (b : Bus) (ataDrive : UInt8) (lba : UInt32) (count : UInt8) : Bus :=
  (setUp ataDrive lba count).dropLast.foldl (fun b out => b.setRegister out.1 out.2) b

section Functions

variable {t : Timing} {b : Bus} {p : Platter} {ataDrive : UInt8}

theorem Attached.selected (h : Attached ataDrive p b) : b.selected = some p := by
  rw [Bus.selected, h.slave, h.there]

/-- A drive that listens hears what is written to its registers. -/
theorem foldl_outB_registers (hlistens : b.Listens) {outs : List (ℕ × UInt8)}
    (h : ∀ out ∈ outs, out.1 ≠ ataCommand) :
    outs.foldl (fun b out => b.outB t out.1 out.2) b =
      outs.foldl (fun b out => b.setRegister out.1 out.2) b := by
  induction outs generalizing b with
  | nil => rfl
  | cons out rest ih =>
      have hfirst : b.outB t out.1 out.2 = b.setRegister out.1 out.2 := by
        rw [Bus.outB, if_pos hlistens, if_neg (h out List.mem_cons_self)]
      rw [List.foldl_cons, List.foldl_cons, hfirst]
      exact ih (b := b.setRegister out.1 out.2) hlistens fun out hout =>
        h out (List.mem_cons_of_mem _ hout)

theorem foldl_setRegister (outs : List (ℕ × UInt8)) (b : Bus) :
    ∃ registers, outs.foldl (fun b out => b.setRegister out.1 out.2) b =
      { b with registers := registers } := by
  induction outs generalizing b with
  | nil => exact ⟨b.registers, rfl⟩
  | cons out rest ih =>
      obtain ⟨registers, hrest⟩ := ih (b.setRegister out.1 out.2)
      exact ⟨registers, hrest⟩

theorem address_listens (hlistens : b.Listens) {lba : UInt32} {count : UInt8} :
    ((setUp ataDrive lba count).dropLast.foldl
      (fun b out => b.setRegister out.1 out.2) b).Listens := by
  obtain ⟨registers, hout⟩ := foldl_setRegister (setUp ataDrive lba count).dropLast b
  rw [hout]
  exact hlistens

theorem address_drives {lba : UInt32} {count : UInt8} :
    (b.address ataDrive lba count).drives = b.drives := by
  obtain ⟨registers, hout⟩ := foldl_setRegister (setUp ataDrive lba count).dropLast b
  rw [Bus.address, hout]

/-- So it hears an address with a command behind it. -/
theorem foldl_outB_address (hlistens : b.Listens) (ataDrive : UInt8) (lba : UInt32)
    (count command : UInt8) :
    ((setUp ataDrive lba count).dropLast ++ [(ataCommand, command)]).foldl
      (fun b out => b.outB t out.1 out.2) b =
        (b.address ataDrive lba count).command t command := by
  have hports : ∀ out ∈ (setUp ataDrive lba count).dropLast, out.1 ≠ ataCommand := by
    intro out hout
    have hmem : out.1 ∈ [ataDriveHead, ataError, ataSectorCount, ataLbaLow, ataLbaMid,
        ataLbaHigh] := List.mem_map_of_mem (f := Prod.fst) hout
    exact (by decide : ∀ port ∈ [ataDriveHead, ataError, ataSectorCount, ataLbaLow, ataLbaMid,
      ataLbaHigh], port ≠ ataCommand) out.1 hmem
  rw [List.foldl_append, foldl_outB_registers hlistens hports, List.foldl_cons, List.foldl_nil,
    Bus.outB, if_pos (address_listens hlistens), if_pos rfl]
  rfl

/-- What the drive makes of the address. -/
theorem address_decoded (hdrive : ataDrive = ataMaster ∨ ataDrive = ataSlave) (lba : UInt32)
    {count : UInt8} (hcount : count ≠ 0) :
    (b.address ataDrive lba count).lba = lba.toNat % 2 ^ 28 ∧
      (b.address ataDrive lba count).count = count.toNat ∧
      (b.address ataDrive lba count).slave = isSlave ataDrive := by
  have hor : ∀ n < 16, isSlave (ataMaster ||| UInt8.ofNat n) = isSlave ataMaster ∧
      isSlave (ataSlave ||| UInt8.ofNat n) = isSlave ataSlave := by decide
  have hpiece : ((lba >>> 24) &&& 0x0F).toUInt8.toNat < 16 := by
    rw [UInt32.toNat_toUInt8, UInt32.toNat_and]
    have hle : (lba >>> 24).toNat &&& (0x0F : UInt32).toNat ≤ 15 := Nat.and_le_right
    omega
  refine ⟨(Ata.sectorOf_setUp hdrive lba count).1, if_neg hcount, ?_⟩
  show isSlave (ataDrive ||| ((lba >>> 24) &&& 0x0F).toUInt8) = isSlave ataDrive
  rw [← UInt8.ofNat_toNat (x := ((lba >>> 24) &&& 0x0F).toUInt8)]
  rcases hdrive with rfl | rfl
  · exact (hor _ hpiece).1
  · exact (hor _ hpiece).2

/-- A command to an attached drive. -/
theorem Attached.command (h : Attached ataDrive p b) (lba : UInt32) {count : UInt8}
    (hcount : count ≠ 0) :
    let b₁ := ({ b with busy := 0, quiet := b.quiet - 1 } : Bus).address ataDrive lba count
    b₁.selected = some p ∧ b₁.drives = b.drives ∧ b₁.slave = isSlave ataDrive ∧
      b₁.command t ataCmdReadPio = b₁.work t (sendFrom p.size (lba.toNat % 2 ^ 28) count.toNat) ∧
      b₁.command t ataCmdWritePio = b₁.work t (takeFrom (lba.toNat % 2 ^ 28) count.toNat) := by
  intro b₁
  obtain ⟨hlba, hcount', hslave⟩ := address_decoded
    (b := { b with busy := 0, quiet := b.quiet - 1 }) h.drive lba hcount
  have hdrives : b₁.drives = b.drives := address_drives
  have hselected : b₁.selected = some p := by
    rw [Bus.selected, hslave, hdrives, h.there]
  refine ⟨hselected, hdrives, hslave, ?_, ?_⟩
  · rw [Bus.command, hselected]
    exact (if_pos rfl).trans (by rw [hlba, hcount'])
  · rw [Bus.command, hselected]
    exact (if_neg (by decide)).trans ((if_pos rfl).trans (by rw [hlba, hcount']))

/-- The first wait, and the address and command behind it. -/
theorem Attached.begins (h : Attached ataDrive p b) (lba : UInt32) (count : UInt8) :
    ataWaitBsy.run (busDevice t) b = (0, { b with busy := 0, quiet := b.quiet - 1 }) ∧
      (outAll (setUpRead ataDrive lba count)).run (busDevice t)
        { b with busy := 0, quiet := b.quiet - 1 } =
          ((), (({ b with busy := 0, quiet := b.quiet - 1 } : Bus).address ataDrive lba
            count).command t ataCmdReadPio) ∧
      (outAll (setUp ataDrive lba count)).run (busDevice t)
        { b with busy := 0, quiet := b.quiet - 1 } =
          ((), (({ b with busy := 0, quiet := b.quiet - 1 } : Bus).address ataDrive lba
            count).command t ataCmdWritePio) := by
  have hlistens : ({ b with busy := 0, quiet := b.quiet - 1 } : Bus).Listens :=
    ⟨rfl, h.rests.phase⟩
  have hread : setUpRead ataDrive lba count =
      (setUp ataDrive lba count).dropLast ++ [(ataCommand, ataCmdReadPio)] := rfl
  have hwrite : setUp ataDrive lba count =
      (setUp ataDrive lba count).dropLast ++ [(ataCommand, ataCmdWritePio)] := rfl
  refine ⟨run_ataWaitBsy_bus h.selected h.rests.busy, ?_, ?_⟩
  · rw [run_outAll, hread]
    simp only [busDevice_outB]
    rw [foldl_outB_address hlistens]
  · rw [run_outAll, hwrite]
    simp only [busDevice_outB]
    rw [foldl_outB_address hlistens]

/-- `ata_read` delivers the sectors when they are there, and fails otherwise. -/
theorem run_ataRead_bus (htimely : Timely t) (h : Attached ataDrive p b) (lba : UInt32)
    {count : UInt8} (hcount : count ≠ 0) (buf : ℕ → UInt8) :
    ∃ out b', (ataRead ataDrive lba count buf).run (busDevice t) b =
        ((if lba.toNat % 2 ^ 28 + count.toNat ≤ p.size then 0 else -1, out), b') ∧
      Attached ataDrive p b' ∧ b'.drives = b.drives ∧
      (lba.toNat % 2 ^ 28 + count.toNat ≤ p.size → ∀ k, out k =
        if k < 512 * count.toNat then
          (p.content (lba.toNat % 2 ^ 28 + k / 512)).byte (k % 512) else buf k) := by
  have hpos : 0 < count.toNat := by
    have : count.toNat ≠ 0 := fun hzero => hcount (UInt8.toNat_inj.mp hzero)
    omega
  obtain ⟨hselected, hdrives, hslave, hcommand, -⟩ := h.command (t := t) lba hcount
  obtain ⟨hbsy, hsetUp, -⟩ := h.begins (t := t) lba count
  obtain ⟨out, b', hrun, hdrives', hregisters, hrests, hout⟩ := run_readLoop_bus htimely 0
    (.work htimely hselected) (Or.inr hpos) buf
  refine ⟨out, b', ?_, ⟨h.drive, ?_, ?_, hrests⟩, hdrives'.trans hdrives, fun hfit k => ?_⟩
  · rw [ataRead, run_bind_of_run _ _ hbsy, if_neg (by decide), run_bind_of_run _ _ hsetUp,
      hcommand, hrun]
  · rw [hdrives', ← h.there, ← hdrives]
    rfl
  · rw [← hslave, Bus.slave, hregisters]
    rfl
  · rw [hout hfit k, Nat.sub_zero]
    exact if_congr (by omega) rfl rfl

/-- `ata_write` puts the sectors where they are to be, when there is a place for them. -/
theorem run_ataWrite_bus (htimely : Timely t) (h : Attached ataDrive p b) (lba : UInt32)
    {count : UInt8} (hcount : count ≠ 0) (buf : ℕ → UInt8)
    (hfit : lba.toNat % 2 ^ 28 + count.toNat ≤ p.size) :
    ∃ b', (ataWrite ataDrive lba count buf).run (busDevice t) b = (0, b') ∧
      Attached ataDrive (p.putAll (lba.toNat % 2 ^ 28) count.toNat buf 0) b' ∧
      b'.drives = Function.update b.drives (isSlave ataDrive)
        (some (p.putAll (lba.toNat % 2 ^ 28) count.toNat buf 0)) := by
  obtain ⟨hselected, hdrives, hslave, -, hcommand⟩ := h.command (t := t) lba hcount
  obtain ⟨hbsy, -, hsetUp⟩ := h.begins (t := t) lba count
  obtain ⟨b', hrun, hdrives', hregisters, hrests⟩ := run_writeLoop_bus htimely buf 0
    (.work htimely hselected) hfit
  have hafter : b'.drives = Function.update b.drives (isSlave ataDrive)
      (some (p.putAll (lba.toNat % 2 ^ 28) count.toNat buf 0)) := by
    rw [hdrives', ← hdrives, ← hslave]
    rfl
  refine ⟨b', ?_, ⟨h.drive, ?_, ?_, hrests⟩, hafter⟩
  · rw [ataWrite, run_bind_of_run _ _ hbsy, if_neg (by decide), run_bind_of_run _ _ hsetUp,
      hcommand, hrun]
  · rw [hafter, Function.update_self]
  · rw [← hslave, Bus.slave, hregisters]
    rfl

/-- **What is written is read back**, and nothing else has changed: after a write of some
sectors, a read of any sectors delivers from the buffer what was written, and from the drive
what was not. -/
theorem ataRead_of_ataWrite (htimely : Timely t) (h : Attached ataDrive p b)
    (lba lba' : UInt32) {count count' : UInt8} (hcount : count ≠ 0) (hcount' : count' ≠ 0)
    (hfit : lba.toNat % 2 ^ 28 + count.toNat ≤ p.size)
    (hfit' : lba'.toNat % 2 ^ 28 + count'.toNat ≤ p.size) (buf buf' : ℕ → UInt8) :
    ((ataWrite ataDrive lba count buf).run (busDevice t) b).1 = 0 ∧
      ∃ out b', (ataRead ataDrive lba' count' buf').run (busDevice t)
          ((ataWrite ataDrive lba count buf).run (busDevice t) b).2 = ((0, out), b') ∧
        ∀ k, out k =
          if 512 * count'.toNat ≤ k then buf' k
          else if lba.toNat % 2 ^ 28 ≤ lba'.toNat % 2 ^ 28 + k / 512 ∧
              lba'.toNat % 2 ^ 28 + k / 512 < lba.toNat % 2 ^ 28 + count.toNat then
            buf (512 * (lba'.toNat % 2 ^ 28) + k - 512 * (lba.toNat % 2 ^ 28))
          else (p.content (lba'.toNat % 2 ^ 28 + k / 512)).byte (k % 512) := by
  obtain ⟨b₁, hwrite, hattached, -⟩ := run_ataWrite_bus htimely h lba hcount buf hfit
  obtain ⟨out, b₂, hread, -, -, hout⟩ := run_ataRead_bus htimely hattached lba' hcount' buf'
  have hsize : lba'.toNat % 2 ^ 28 + count'.toNat ≤
      (p.putAll (lba.toNat % 2 ^ 28) count.toNat buf 0).size := hfit'
  rw [if_pos hsize] at hread
  rw [hwrite]
  refine ⟨rfl, out, b₂, hread, fun k => ?_⟩
  rw [hout hsize k]
  by_cases hk : k < 512 * count'.toNat
  · rw [if_pos hk, if_neg (by omega), Platter.putAll]
    dsimp only
    split_ifs with hnew
    · rw [Sector.byte_ofBytes _ (Nat.mod_lt _ (by decide))]
      congr 1
      omega
    · rfl
  · rw [if_neg hk, if_pos (by omega)]

end Functions

theorem timely_prompt : Timely prompt :=
  fun _ => ⟨Nat.zero_lt_succ _, Nat.zero_lt_succ _⟩

theorem timely_slow : Timely slow :=
  fun _ => ⟨(Nat.sub_le ..).trans_lt (by decide), (by decide : 3 < 100000)⟩

/-- Two sectors are written to a slow master, and three are read back: the first is still the
one of ones. -/
theorem ataRead_of_ataWrite_oneDrive : ∃ out b',
    (ataRead ataMaster 0 3 fun _ => 0).run (busDevice slow)
      ((ataWrite ataMaster 1 2 fun k => UInt8.ofNat (7 + k / 512)).run (busDevice slow)
        oneDrive).2 = ((0, out), b') ∧
    ∀ k < 1536, out k = if k < 512 then 1 else UInt8.ofNat (7 + (k - 512) / 512) := by
  have hattached : Attached ataMaster ⟨4, fun _ => .ofBytes fun _ => 1⟩ oneDrive :=
    ⟨Or.inl rfl, rfl, rfl, Or.inl rfl, by decide⟩
  obtain ⟨-, out, b', hread, hout⟩ := ataRead_of_ataWrite timely_slow hattached 1 0
    (by decide : (2 : UInt8) ≠ 0) (by decide : (3 : UInt8) ≠ 0) (by decide) (by decide)
    (fun k => UInt8.ofNat (7 + k / 512)) fun _ => 0
  have htwo : (2 : UInt8).toNat = 2 := rfl
  have hthree : (3 : UInt8).toNat = 3 := rfl
  have hzero : (0 : UInt32).toNat % 2 ^ 28 = 0 := rfl
  have hone : (1 : UInt32).toNat % 2 ^ 28 = 1 := rfl
  refine ⟨out, b', hread, fun k hk => ?_⟩
  rw [hout k, htwo, hthree, hzero, hone, if_neg (by omega)]
  by_cases hold : k < 512
  · rw [if_pos hold, if_neg (by omega)]
    exact Sector.byte_ofBytes (fun _ => 1) (Nat.mod_lt k (by decide))
  · rw [if_neg hold, if_pos (by omega), Nat.mul_zero, Nat.zero_add, Nat.mul_one]

end MasterOS.Pio
