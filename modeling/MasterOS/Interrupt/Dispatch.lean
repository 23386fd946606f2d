/-
# Interrupts from the controllers

`irq_handler` calls the handler of a line and tells the controllers that the interrupt has ended.
Handlers run with interrupts disabled. So while devices raise their lines at any time, in every
run behind `initIDT` one handler runs at a time, the line in service is that of this handler, no
request is lost or served twice, and an interrupt that is no longer there does no harm.
-/

import MasterOS.Device.Pic
import MasterOS.Interrupt.Stubs
import MasterOS.Math.Simulation

namespace MasterOS.Interrupt

open MasterOS.Device MasterOS.Device.PortProg MasterOS.Math

/-! ## The code -/

/-- The part of `initIDT` that sets up the controllers. -/
def initPics : PortProg Unit :=
  outAll [(0x20, 0x11), (0xA0, 0x11), (0x21, 0x20), (0xA1, 0x28), (0x21, 0x04), (0xA1, 0x02),
    (0x21, 0x01), (0xA1, 0x01), (0x21, 0x0), (0xA1, 0x0)]

/-- `irq_routines`, with handlers that change the data of the kernel. -/
abbrev Routines (K : Type) := Fin 16 → Option (K → K)

variable {K : Type}

/-- `irq_install_handler`. -/
def irqInstallHandler (irq : Fin 16) (handler : K → K) (routines : Routines K) : Routines K :=
  Function.update routines irq (some handler)

/-- The call of the handler in `irq_handler`, for the vectors of the sixteen lines. -/
def callRoutine (routines : Routines K) (intNo : ℕ) (k : K) : K :=
  if h : 32 ≤ intNo ∧ intNo < 48 then ((routines ⟨intNo - 32, by omega⟩).getD id) k else k

/-- `irq_handler`. -/
def irqHandler (routines : Routines K) (intNo : ℕ) (k : K) : PortProg K :=
  let k := callRoutine routines intNo k
  if 40 ≤ intNo then do
    outPortB 0xA0 0x20
    outPortB 0x20 0x20
    .ret k
  else do
    outPortB 0x20 0x20
    .ret k

/-! ## The controllers behind `initIDT` -/

/-- A controller behind its initialisation. -/
def programmed (base cascade : UInt8) : Pic := ⟨noLines, noLines, noLines, base, cascade, 0⟩

theorem programmed_of_words (p : Pic) (base cascade : UInt8) (hbase : base &&& 0xF8 = base) :
    ((((p.command 0x11).data base).data cascade).data 0x01).data 0x0 = programmed base cascade := by
  have hmask : (fun i : Fin 8 => (0 : UInt8).toNat.testBit i) = noLines := by decide
  have hfirst : p.command 0x11 =
      { p with irr := noLines, isr := noLines, imr := noLines, expect := 2 } := if_pos (by decide)
  rw [hfirst]
  simp only [Pic.data, hbase, hmask, programmed]

theorem outB_picsDevice (ps : Pics) (value : UInt8) :
    picsDevice.outB ps 0x20 value = { ps with master := ps.master.command value } ∧
      picsDevice.outB ps 0x21 value = { ps with master := ps.master.data value } ∧
      picsDevice.outB ps 0xA0 value = { ps with slave := ps.slave.command value } ∧
      picsDevice.outB ps 0xA1 value = { ps with slave := ps.slave.data value } := by
  refine ⟨?_, ?_, ?_, ?_⟩ <;> rfl

/-- **`initIDT` sets up the controllers** whatever they held: the lines of the master have the
vectors from 32 on and those of the slave from 40, and no line is masked. -/
theorem run_initPics (ps : Pics) :
    (initPics.run picsDevice ps).2 = ⟨programmed 0x20 0x04, programmed 0x28 0x02⟩ := by
  have hmaster := programmed_of_words ps.master 0x20 0x04 (by decide)
  have hslave := programmed_of_words ps.slave 0x28 0x02 (by decide)
  rw [initPics, run_outAll, ← hmaster, ← hslave]
  simp only [List.foldl_cons, List.foldl_nil, outB_picsDevice]

/-! ## The system -/

/-- The controllers, the vector whose handler runs, and the data of the kernel. -/
structure System (K : Type) where
  pics : Pics
  running : Option UInt8
  k : K

/-- What happens: a device raises a line that did not ask, or one that did; the processor begins to
serve a line, or an interrupt that is no longer there; a handler returns. -/
inductive Event
  | raised (l : Line)
  | merged (l : Line)
  | served (l : Line)
  | spurious (slave : Bool)
  | returned (vector : UInt8)
  deriving DecidableEq

/-- One step. Handlers run with interrupts disabled, so that none begins before the one that runs
has returned. -/
def Step (routines : Routines K) (s : System K) : Event → System K → Prop
  | .raised l, s' => l ≠ .master cascadeLine ∧ s.pics.asks l = false ∧
      s' = { s with pics := s.pics.raise l }
  | .merged l, s' => l ≠ .master cascadeLine ∧ s.pics.asks l = true ∧
      s' = { s with pics := s.pics.raise l }
  | .served l, s' => s.running = none ∧ s.pics.requested = some l ∧
      s' = { s with pics := s.pics.acknowledge l, running := some (s.pics.vector l) }
  | .spurious slave, s' => s.running = none ∧
      s' = { s with
        pics := (s.pics.acknowledgeSpurious slave).2
        running := some (s.pics.acknowledgeSpurious slave).1 }
  | .returned vector, s' => s.running = some vector ∧
      s' = ⟨((irqHandler routines vector.toNat s.k).run picsDevice s.pics).2, none,
        ((irqHandler routines vector.toNat s.k).run picsDevice s.pics).1⟩

/-- The lines in service while the handler of a vector runs. -/
inductive InService : Option UInt8 → Lines → Lines → Prop
  | rest : InService none noLines noLines
  | master (i : Fin 8) : InService (some (0x20 + .ofNat i)) (Pic.only i) noLines
  | slave (i : Fin 8) : InService (some (0x28 + .ofNat i)) (Pic.only cascadeLine) (Pic.only i)
  | masterSpurious : InService (some 0x27) noLines noLines
  | slaveSpurious : InService (some 0x2F) (Pic.only cascadeLine) noLines

/-- What holds of the controllers in every state. -/
structure Orderly (s : System K) : Prop where
  base : s.pics.master.base = 0x20 ∧ s.pics.slave.base = 0x28
  linked : s.pics.linked = true
  unmasked : s.pics.master.imr = noLines ∧ s.pics.slave.imr = noLines
  cascade : s.pics.master.irr cascadeLine = false
  service : InService s.running s.pics.master.isr s.pics.slave.isr

/-- The data of the kernel have no part in it. -/
theorem Orderly.withData {K' : Type} {s : System K} (h : Orderly s) (k : K') :
    Orderly (⟨s.pics, s.running, k⟩ : System K') :=
  ⟨h.base, h.linked, h.unmasked, h.cascade, h.service⟩

/-! ## What one step does -/

theorem run_irqHandler (routines : Routines K) (intNo : ℕ) (k : K) (ps : Pics) :
    (irqHandler routines intNo k).run picsDevice ps = (callRoutine routines intNo k,
      ⟨ps.master.endOfInterrupt, if 40 ≤ intNo then ps.slave.endOfInterrupt else ps.slave⟩) := by
  have hend (p : Pic) : p.command 0x20 = p.endOfInterrupt := by
    rw [Pic.command, if_neg (by decide), if_pos rfl]
  unfold irqHandler
  by_cases hslave : 40 ≤ intNo
  · rw [if_pos hslave, if_pos hslave, run_bind, run_outPortB, run_bind, run_outPortB, run_ret]
    simp only [outB_picsDevice, hend]
  · rw [if_neg hslave, if_neg hslave, run_bind, run_outPortB, run_ret]
    simp only [outB_picsDevice, hend]

theorem endOfInterrupt_irr (p : Pic) : p.endOfInterrupt.irr = p.irr := by
  unfold Pic.endOfInterrupt
  split <;> rfl

theorem endOfInterrupt_kept (p : Pic) : p.endOfInterrupt.base = p.base ∧
    p.endOfInterrupt.imr = p.imr ∧ p.endOfInterrupt.cascade = p.cascade := by
  unfold Pic.endOfInterrupt
  split <;> exact ⟨rfl, rfl, rfl⟩

/-- The line that interrupts the processor is one that asks. -/
theorem requested_asks {ps : Pics} {l : Line} (h : ps.requested = some l) :
    ps.asks l = true ∧ l ≠ .master cascadeLine := by
  obtain ⟨i, hi, hl⟩ := Option.bind_eq_some_iff.mp h
  by_cases hcascade : i = cascadeLine
  · rw [if_pos hcascade] at hl
    obtain ⟨j, hj, rfl⟩ := Option.map_eq_some_iff.mp hl
    exact ⟨((Pic.requested_eq_some_iff _).mp hj).1, by simp⟩
  · rw [if_neg hcascade] at hl
    obtain rfl : Line.master i = l := Option.some.inj hl
    have hask := ((Pic.requested_eq_some_iff _).mp hi).1
    rw [ps.driven_of_ne hcascade] at hask
    exact ⟨hask, fun heq => hcascade (Line.master.inj heq)⟩

section Steps

variable {routines : Routines K} {s s' : System K} {e : Event}

theorem Orderly.raise (h : Orderly s) {l : Line} (hl : l ≠ .master cascadeLine) :
    Orderly { s with pics := s.pics.raise l } := by
  cases l with
  | master i =>
      have hne : cascadeLine ≠ i := fun heq => hl (heq ▸ rfl)
      exact ⟨h.base, h.linked, h.unmasked, (Function.update_of_ne hne ..).trans h.cascade,
        h.service⟩
  | slave i => exact ⟨h.base, h.linked, h.unmasked, h.cascade, h.service⟩

theorem Orderly.at_rest (h : Orderly s) (hrest : s.running = none) :
    s.pics.master.isr = noLines ∧ s.pics.slave.isr = noLines := by
  have hservice := h.service
  rw [hrest] at hservice
  generalize s.pics.master.isr = m, s.pics.slave.isr = n at hservice
  cases hservice
  exact ⟨rfl, rfl⟩

theorem Orderly.serve (h : Orderly s) (hrest : s.running = none) {l : Line}
    (hl : l ≠ .master cascadeLine) :
    Orderly { s with pics := s.pics.acknowledge l, running := some (s.pics.vector l) } := by
  obtain ⟨hmaster, hslave⟩ := h.at_rest hrest
  cases l with
  | master i =>
      have hne : cascadeLine ≠ i := fun heq => hl (heq ▸ rfl)
      refine ⟨h.base, h.linked, h.unmasked, (Function.update_of_ne hne ..).trans h.cascade, ?_⟩
      show InService (some (s.pics.master.base + .ofNat i))
        (Function.update s.pics.master.isr i true) s.pics.slave.isr
      rw [hmaster, hslave, h.base.1, Pic.update_noLines]
      exact .master i
  | slave i =>
      have hasked : Function.update s.pics.master.irr cascadeLine false cascadeLine = false :=
        Function.update_self ..
      refine ⟨h.base, h.linked, h.unmasked, hasked, ?_⟩
      show InService (some (s.pics.slave.base + .ofNat i))
        (Function.update s.pics.master.isr cascadeLine true)
        (Function.update s.pics.slave.isr i true)
      rw [hmaster, hslave, h.base.2, Pic.update_noLines, Pic.update_noLines]
      exact .slave i

theorem Orderly.serveSpurious (h : Orderly s) (hrest : s.running = none) (slave : Bool) :
    Orderly { s with
      pics := (s.pics.acknowledgeSpurious slave).2
      running := some (s.pics.acknowledgeSpurious slave).1 } := by
  obtain ⟨hmaster, hslave⟩ := h.at_rest hrest
  cases slave with
  | false =>
      refine ⟨h.base, h.linked, h.unmasked, h.cascade, ?_⟩
      show InService (some (s.pics.master.base + .ofNat 7)) s.pics.master.isr s.pics.slave.isr
      rw [hmaster, hslave, h.base.1]
      exact .masterSpurious
  | true =>
      have hasked : Function.update s.pics.master.irr cascadeLine false cascadeLine = false :=
        Function.update_self ..
      refine ⟨h.base, h.linked, h.unmasked, hasked, ?_⟩
      show InService (some (s.pics.slave.base + .ofNat 7))
        (Function.update s.pics.master.isr cascadeLine true) s.pics.slave.isr
      rw [hmaster, hslave, h.base.2, Pic.update_noLines]
      exact .slaveSpurious

/-- The writes of `irq_handler` end exactly the service that the interrupt began. -/
theorem InService.ended {vector : UInt8} {master slave : Pic}
    (h : InService (some vector) master.isr slave.isr) : master.endOfInterrupt.isr = noLines ∧
      (if 40 ≤ vector.toNat then slave.endOfInterrupt else slave).isr = noLines := by
  have hlow : ∀ i : Fin 8, ((0x20 : UInt8) + .ofNat i).toNat < 40 := by decide
  have hhigh : ∀ i : Fin 8, 40 ≤ ((0x28 : UInt8) + .ofNat i).toNat := by decide
  generalize hv : some vector = running at h
  generalize hm : master.isr = m at h
  generalize hn : slave.isr = n at h
  have hnone {p : Pic} (hp : p.isr = noLines) : p.endOfInterrupt.isr = noLines := by
    rw [Pic.endOfInterrupt_none hp, hp]
  have honly {p : Pic} {i : Fin 8} (hp : p.isr = Pic.only i) :
      p.endOfInterrupt.isr = noLines := by
    rw [Pic.endOfInterrupt_only hp]
  cases h with
  | rest => cases hv
  | master i =>
      obtain rfl := Option.some.inj hv
      rw [if_neg (Nat.not_le.mpr (hlow i))]
      exact ⟨honly hm, hn⟩
  | slave i =>
      obtain rfl := Option.some.inj hv
      rw [if_pos (hhigh i)]
      exact ⟨honly hm, honly hn⟩
  | masterSpurious =>
      obtain rfl := Option.some.inj hv
      rw [if_neg (by decide)]
      exact ⟨hnone hm, hn⟩
  | slaveSpurious =>
      obtain rfl := Option.some.inj hv
      rw [if_pos (by decide)]
      exact ⟨honly hm, hnone hn⟩

theorem Orderly.finish (h : Orderly s) {vector : UInt8} (hrun : s.running = some vector) :
    Orderly (⟨((irqHandler routines vector.toNat s.k).run picsDevice s.pics).2, none,
      ((irqHandler routines vector.toNat s.k).run picsDevice s.pics).1⟩ : System K) := by
  have hended := (hrun ▸ h.service : InService (some vector) _ _).ended
  rw [run_irqHandler]
  obtain ⟨hbase, himr, hcas⟩ := endOfInterrupt_kept s.pics.master
  obtain ⟨hbase', himr', hcas'⟩ := endOfInterrupt_kept s.pics.slave
  have hslave : (if 40 ≤ vector.toNat then s.pics.slave.endOfInterrupt else s.pics.slave).base =
        s.pics.slave.base ∧
      (if 40 ≤ vector.toNat then s.pics.slave.endOfInterrupt else s.pics.slave).imr =
        s.pics.slave.imr ∧
      (if 40 ≤ vector.toNat then s.pics.slave.endOfInterrupt else s.pics.slave).cascade =
        s.pics.slave.cascade := by
    split_ifs
    · exact ⟨hbase', himr', hcas'⟩
    · exact ⟨rfl, rfl, rfl⟩
  refine ⟨⟨hbase.trans h.base.1, hslave.1.trans h.base.2⟩, ?_,
    ⟨himr.trans h.unmasked.1, hslave.2.1.trans h.unmasked.2⟩, ?_, ?_⟩
  · have hlinked := h.linked
    rw [Pics.linked] at hlinked ⊢
    dsimp only
    rwa [hcas, hslave.2.2]
  · dsimp only
    rw [endOfInterrupt_irr]
    exact h.cascade
  · dsimp only
    rw [hended.1, hended.2]
    exact .rest

/-- **The step lemma.** -/
theorem Orderly.step (h : Orderly s) {e : Event} (hstep : Step routines s e s') : Orderly s' := by
  cases e with
  | raised l =>
      obtain ⟨hl, -, rfl⟩ := hstep
      exact h.raise hl
  | merged l =>
      obtain ⟨hl, -, rfl⟩ := hstep
      exact h.raise hl
  | served l =>
      obtain ⟨hrest, hl, rfl⟩ := hstep
      exact h.serve hrest (requested_asks hl).2
  | spurious slave =>
      obtain ⟨hrest, rfl⟩ := hstep
      exact h.serveSpurious hrest slave
  | returned vector =>
      obtain ⟨hrun, rfl⟩ := hstep
      exact h.finish hrun

theorem asks_raise (ps : Pics) (l : Line) : (ps.raise l).asks = Function.update ps.asks l true := by
  funext l'
  cases l with
  | master i => cases l' <;> simp [Pics.raise, Pics.asks, Function.update_apply]
  | slave i => cases l' <;> simp [Pics.raise, Pics.asks, Function.update_apply]

theorem asks_acknowledge {ps : Pics} (hcascade : ps.master.irr cascadeLine = false) (l : Line) :
    (ps.acknowledge l).asks = Function.update ps.asks l false := by
  funext l'
  cases l with
  | master i =>
      cases l' <;> simp [Pics.acknowledge, Pic.serve, Pics.asks, Function.update_apply]
  | slave i =>
      cases l' with
      | master j =>
          simp only [Pics.acknowledge, Pic.serve, Pics.asks, Function.update_apply]
          by_cases heq : j = cascadeLine
          · rw [if_pos heq, if_neg (by simp), heq, hcascade]
          · rw [if_neg heq, if_neg (by simp)]
      | slave j => simp [Pics.acknowledge, Pic.serve, Pics.asks, Function.update_apply]

/-- The requests behind an event: a raise makes one, and service takes it. -/
def Event.after (asks : Line → Bool) : Event → Line → Bool
  | .raised l => Function.update asks l true
  | .served l => Function.update asks l false
  | _ => asks

theorem Step.asks (h : Orderly s) (hstep : Step routines s e s') :
    s'.pics.asks = e.after s.pics.asks := by
  cases e with
  | raised l =>
      obtain ⟨-, -, rfl⟩ := hstep
      exact asks_raise s.pics l
  | merged l =>
      obtain ⟨-, hask, rfl⟩ := hstep
      have hsame : Function.update s.pics.asks l true = s.pics.asks := by
        rw [← hask, Function.update_eq_self]
      exact (asks_raise s.pics l).trans hsame
  | served l =>
      obtain ⟨-, -, rfl⟩ := hstep
      exact asks_acknowledge h.cascade l
  | spurious slave =>
      obtain ⟨-, rfl⟩ := hstep
      cases slave with
      | false => rfl
      | true =>
          have hsame : Function.update s.pics.master.irr cascadeLine false = s.pics.master.irr := by
            rw [← h.cascade, Function.update_eq_self]
          funext l
          cases l with
          | master i => exact congrFun hsame i
          | slave i => rfl
  | returned vector =>
      obtain ⟨-, rfl⟩ := hstep
      rw [run_irqHandler]
      funext l
      cases l with
      | master i => exact congrFun (endOfInterrupt_irr _) i
      | slave i =>
          show (if 40 ≤ vector.toNat then s.pics.slave.endOfInterrupt else s.pics.slave).irr i = _
          split_ifs
          · exact congrFun (endOfInterrupt_irr _) i
          · rfl

/-- One request more or less, by one event. -/
theorem Step.counted (h : Orderly s) (hstep : Step routines s e s') (l : Line) :
    (s.pics.asks l).toNat + [e].count (.raised l) =
      [e].count (.served l) + (s'.pics.asks l).toNat := by
  have hasks := congrFun (hstep.asks h) l
  rw [hasks, Event.after.eq_def]
  cases e with
  | raised l' =>
      by_cases heq : l = l'
      · subst heq
        have hnot := hstep.2.1
        simp [hnot]
      · have hne : l' ≠ l := fun h => heq h.symm
        simp [heq, hne]
  | served l' =>
      by_cases heq : l = l'
      · subst heq
        have hask := (requested_asks hstep.2.1).1
        simp [hask]
      · have hne : l' ≠ l := fun h => heq h.symm
        simp [heq, hne]
  | _ => simp

/-- **The run lemma**: the controllers stay in order, and no request is lost or made up. -/
theorem Orderly.run (h : Orderly s) {events : List Event}
    (hrun : Trace (Step routines) s events s') : Orderly s' ∧ ∀ l,
      (s.pics.asks l).toNat + events.count (.raised l) =
        events.count (.served l) + (s'.pics.asks l).toNat := by
  induction hrun with
  | nil => exact ⟨h, fun l => by rw [List.count_nil, List.count_nil, Nat.add_zero, Nat.zero_add]⟩
  | cons hstep _ ih =>
      obtain ⟨horderly, hcount⟩ := ih (h.step hstep)
      refine ⟨horderly, fun l => ?_⟩
      have hone := hstep.counted h l
      have hrest := hcount l
      rw [List.count_singleton] at hone
      rw [List.count_singleton] at hone
      rw [List.count_cons, List.count_cons]
      omega

/-- The vector whose handler an event calls. -/
def Event.calls : Event → Option UInt8
  | .served (.master i) => some (0x20 + .ofNat i)
  | .served (.slave i) => some (0x28 + .ofNat i)
  | .spurious false => some 0x27
  | .spurious true => some 0x2F
  | _ => none

/-- The handler that returns in an event. -/
def Event.returns : Event → Option UInt8
  | .returned vector => some vector
  | _ => none

/-- The handler that runs was called, and runs until it returns. -/
theorem Step.running (h : Orderly s) (hstep : Step routines s e s') :
    s.running.toList ++ e.calls.toList = e.returns.toList ++ s'.running.toList := by
  cases e with
  | raised l | merged l =>
      obtain ⟨-, -, rfl⟩ := hstep
      exact List.append_nil _
  | served l =>
      obtain ⟨hrest, -, rfl⟩ := hstep
      rw [hrest]
      cases l with
      | master i =>
          show _ = [s.pics.master.base + .ofNat i]
          rw [h.base.1]
          rfl
      | slave i =>
          show _ = [s.pics.slave.base + .ofNat i]
          rw [h.base.2]
          rfl
  | spurious slave =>
      obtain ⟨hrest, rfl⟩ := hstep
      rw [hrest]
      cases slave with
      | false =>
          show _ = [s.pics.master.base + .ofNat 7]
          rw [h.base.1]
          rfl
      | true =>
          show _ = [s.pics.slave.base + .ofNat 7]
          rw [h.base.2]
          rfl
  | returned vector =>
      obtain ⟨hrun, rfl⟩ := hstep
      rw [hrun]
      rfl

theorem filterMap_cons_toList {α β : Type} (f : α → Option β) (a : α) (l : List α) :
    (a :: l).filterMap f = (f a).toList ++ l.filterMap f := by
  rw [List.filterMap_cons]
  cases f a <;> rfl

/-- The handlers that have returned, and the one that runs, are those that were called, each in its
turn. -/
theorem Orderly.run_calls (h : Orderly s) {events : List Event}
    (hrun : Trace (Step routines) s events s') :
    s.running.toList ++ events.filterMap Event.calls =
      events.filterMap Event.returns ++ s'.running.toList := by
  induction hrun with
  | nil => exact List.append_nil _
  | cons hstep _ ih =>
      have hrest := ih (h.step hstep)
      rw [filterMap_cons_toList, filterMap_cons_toList, ← List.append_assoc, hstep.running h,
        List.append_assoc, hrest, List.append_assoc]

/-- The data of the kernel behind an event. -/
theorem Step.data (hstep : Step routines s e s') : s'.k =
    e.returns.toList.foldl (fun k vector => callRoutine routines vector.toNat k) s.k := by
  cases e with
  | raised l | merged l | served l =>
      obtain ⟨-, -, rfl⟩ := hstep
      rfl
  | spurious slave =>
      obtain ⟨-, rfl⟩ := hstep
      rfl
  | returned vector =>
      obtain ⟨-, rfl⟩ := hstep
      rw [run_irqHandler]
      rfl

/-- They change by the handlers that return, in this order. -/
theorem run_data {events : List Event} (hrun : Trace (Step routines) s events s') :
    s'.k = (events.filterMap Event.returns).foldl
      (fun k vector => callRoutine routines vector.toNat k) s.k := by
  induction hrun with
  | nil => rfl
  | cons hstep _ ih => rw [ih, hstep.data, filterMap_cons_toList, List.foldl_append]

end Steps

/-- Every vector that the controllers give has a gate, with a stub that puts down an error code
where the processor does not. -/
theorem vectors_of_calls {e : Event} {vector : UInt8} (h : e.calls = some vector) :
    (⟨vector.toNat, vector.toNat_lt⟩ : Fin 256) ∈ vectors ∧ vector.toNat ∉ errCodeVectors := by
  have hall : ∀ n : Fin 16, (⟨32 + n.val, by omega⟩ : Fin 256) ∈ vectors ∧
      32 + n.val ∉ errCodeVectors := by decide +kernel
  have hmaster : ∀ i : Fin 8, ((0x20 : UInt8) + .ofNat i).toNat = 32 + i.val := by decide
  have hslave : ∀ i : Fin 8, ((0x28 : UInt8) + .ofNat i).toNat = 32 + (8 + i.val) := by decide
  have hline (n : Fin 16) (hn : vector.toNat = 32 + n.val) :
      (⟨vector.toNat, vector.toNat_lt⟩ : Fin 256) ∈ vectors ∧ vector.toNat ∉ errCodeVectors := by
    simp only [hn]
    exact hall n
  cases e with
  | served l =>
      cases l with
      | master i =>
          obtain rfl := Option.some.inj h
          exact hline ⟨i.val, by omega⟩ (hmaster i)
      | slave i =>
          obtain rfl := Option.some.inj h
          exact hline ⟨8 + i.val, by omega⟩ (hslave i)
  | spurious slave =>
      cases slave with
      | false =>
          obtain rfl := Option.some.inj h
          exact hline 7 rfl
      | true =>
          obtain rfl := Option.some.inj h
          exact hline 15 rfl
  | _ => cases h

/-! ## Whole runs -/

/-- The system behind `initIDT`. -/
def booted (ps : Pics) (k : K) : System K := ⟨(initPics.run picsDevice ps).2, none, k⟩

theorem booted_orderly (ps : Pics) (k : K) : Orderly (booted ps k) := by
  have hlinked : (⟨programmed 0x20 0x04, programmed 0x28 0x02⟩ : Pics).linked = true := by decide
  rw [booted, run_initPics]
  exact ⟨⟨rfl, rfl⟩, hlinked, ⟨rfl, rfl⟩, rfl, .rest⟩

theorem booted_asks (ps : Pics) (k : K) (l : Line) : (booted ps k).pics.asks l = false := by
  rw [booted, run_initPics]
  cases l <;> rfl

/-- **No interrupt is lost, and none is served twice.** In every run behind `initIDT`, whatever the
devices do: each request of a line has been served once, or waits; each handler that was called has
returned, in the order of the calls, but for the one that runs; the data of the kernel are what
these have made of them; and the lines in service are those of the one that runs. -/
theorem irqs_conserved {routines : Routines K} {ps : Pics} {k : K} {events : List Event}
    {s : System K} (hrun : Trace (Step routines) (booted ps k) events s) :
    (∀ l, events.count (.raised l) = events.count (.served l) + (s.pics.asks l).toNat) ∧
      events.filterMap Event.calls = events.filterMap Event.returns ++ s.running.toList ∧
      s.k = (events.filterMap Event.returns).foldl
        (fun k vector => callRoutine routines vector.toNat k) k ∧
      InService s.running s.pics.master.isr s.pics.slave.isr := by
  obtain ⟨horderly, hcount⟩ := (booted_orderly ps k).run hrun
  refine ⟨fun l => ?_, (booted_orderly ps k).run_calls hrun, run_data hrun, horderly.service⟩
  have hline := hcount l
  rwa [booted_asks, Bool.toNat_false, Nat.zero_add] at hline

/-- Controllers that nothing has set up. -/
def unset : Pics :=
  ⟨⟨noLines, noLines, noLines, 0, 0, 0⟩, ⟨noLines, noLines, noLines, 0, 0, 0⟩⟩

/-- The timer ticks after another line has asked, which asks again meanwhile. -/
def twoLines (l l' : Line) : List Event :=
  [.raised l, .raised l', .served l', .merged l, .returned 0x20, .served l]

theorem trace_twoLines : ∃ s, Trace (Step (fun _ => some Nat.succ))
    (booted unset 0) (twoLines (.slave 3) (.master 0)) s := by
  refine ⟨_, .cons ⟨by decide, by decide +kernel, rfl⟩ (.cons ⟨by decide, by decide +kernel, rfl⟩
    (.cons ⟨rfl, by decide +kernel, rfl⟩ (.cons ⟨by decide, by decide +kernel, rfl⟩
      (.cons ⟨by decide +kernel, rfl⟩ (.cons ⟨rfl, by decide +kernel, rfl⟩ (.nil _))))))⟩

theorem irqs_conserved_twoLines : ∃ s : System ℕ, s.running = some 0x2B ∧
    s.pics.asks (.slave 3) = false := by
  obtain ⟨s, hrun⟩ := trace_twoLines
  obtain ⟨hcount, hcalls, -, -⟩ := irqs_conserved hrun
  have hline := hcount (.slave 3)
  have hone : (twoLines (.slave 3) (.master 0)).count (.raised (.slave 3)) = 1 := by decide
  have hserved : (twoLines (.slave 3) (.master 0)).count (.served (.slave 3)) = 1 := by decide
  have hcalled : (twoLines (.slave 3) (.master 0)).filterMap Event.calls = [0x20, 0x2B] := by decide
  have hreturned : (twoLines (.slave 3) (.master 0)).filterMap Event.returns = [0x20] := by decide
  rw [hone, hserved] at hline
  rw [hcalled, hreturned] at hcalls
  refine ⟨s, ?_, ?_⟩
  · cases hrun : s.running with
    | none =>
        rw [hrun] at hcalls
        cases hcalls
    | some vector =>
        rw [hrun] at hcalls
        rw [(List.cons.inj (List.cons.inj hcalls).2).1]
  · cases hask : s.pics.asks (.slave 3) with
    | false => rfl
    | true =>
        rw [hask] at hline
        cases hline

end MasterOS.Interrupt
