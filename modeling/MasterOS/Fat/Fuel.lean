/-
# More fuel changes nothing

A loop that ends with some fuel ends the same way with more. So it is enough to
say what an operation does when the fuel covers every loop it may run.
-/

import MasterOS.Fat.Driver

namespace MasterOS.Fat

open MasterOS.Device MasterOS.Device.Prog

theorem findSlot_extends (m : Mount) (dirc : ℕ) (fatBuf : FatBuf)
    (verdict : RawDirEntry → Verdict) (s : ℕ) {fuel fuel' : ℕ} (h : fuel ≤ fuel') :
    (findSlot m dirc fatBuf verdict fuel s).Extends (findSlot m dirc fatBuf verdict fuel' s) := by
  refine extends_of_le (p := fun n => findSlot m dirc fatBuf verdict n s) (fun n => ?_) h
  induction n generalizing s with
  | zero => exact stop_extends _ _
  | succ n ih =>
      refine (Extends.refl (readDirSector m dirc fatBuf s)).bind fun answer => ?_
      cases answer with
      | error code => exact .refl _
      | ok sector =>
          dsimp only
          cases scanSlots verdict sector (List.range 16) with
          | nothing => exact ih _
          | ended => exact .refl _
          | hit i => exact .refl _

theorem freeChain_extends (fatBuf : FatBuf) (c : ℕ) {fuel fuel' : ℕ} (h : fuel ≤ fuel') :
    (freeChain fuel fatBuf c).Extends (freeChain fuel' fatBuf c) := by
  refine extends_of_le (p := fun n => freeChain n fatBuf c) (fun n => ?_) h
  induction n generalizing fatBuf c with
  | zero => exact stop_extends _ _
  | succ n ih =>
      rw [freeChain, freeChain]
      exact extends_ite (fun _ => (Extends.refl _).bind fun next => ih _ _) fun _ => .refl _

theorem writeClusters_extends (m : Mount) (total : ℕ) (data : ℕ → UInt8) (size bytesLeft first
    prev : ℕ) (fatBuf : FatBuf) (taken : List ℕ) {fuel fuel' : ℕ} (h : fuel ≤ fuel') :
    (writeClusters m total data size fuel bytesLeft first prev fatBuf taken).Extends
      (writeClusters m total data size fuel' bytesLeft first prev fatBuf taken) := by
  refine extends_of_le
    (p := fun n => writeClusters m total data size n bytesLeft first prev fatBuf taken)
    (fun n => ?_) h
  induction n generalizing bytesLeft first prev fatBuf taken with
  | zero => exact stop_extends _ _
  | succ n ih =>
      rw [writeClusters, writeClusters]
      refine extends_ite (fun _ => .refl _) fun _ => ?_
      refine (Extends.refl _).bind fun cluster => extends_ite (fun _ => .refl _) fun _ => ?_
      refine (Extends.refl _).bind fun answer => ?_
      cases answer with
      | none => exact .refl _
      | some bytesLeft => exact ih _ _ _ _ _

theorem readChain_extends (m : Mount) (fatBuf : FatBuf) (fileSize bufSize c bytesRead : ℕ)
    (buf : ℕ → UInt8) {fuel fuel' : ℕ} (h : fuel ≤ fuel') :
    (readChain m fatBuf fileSize bufSize fuel c bytesRead buf).Extends
      (readChain m fatBuf fileSize bufSize fuel' c bytesRead buf) := by
  refine extends_of_le (p := fun n => readChain m fatBuf fileSize bufSize n c bytesRead buf)
    (fun n => ?_) h
  induction n generalizing c bytesRead buf with
  | zero => exact stop_extends _ _
  | succ n ih =>
      rw [readChain, readChain]
      refine extends_ite (fun _ => (Extends.refl _).bind fun step => ?_) fun _ => .refl _
      cases step with
      | failed buf => exact .refl _
      | finished bytesRead buf => exact .refl _
      | more bytesRead buf =>
          exact (Extends.refl _).bind fun _ =>
            extends_ite (fun _ => .refl _) fun _ => ih _ _ _

theorem withFat_extends {α : Type} (st : Driver) (owner : Owner) (failed : α)
    {body body' : FatBuf → FatProg (α × Driver)}
    (h : ∀ fatBuf, (body fatBuf).Extends (body' fatBuf)) :
    (withFat st owner failed body).Extends (withFat st owner failed body') := by
  unfold withFat
  exact extends_ite (fun _ => (Extends.refl _).bind fun answer =>
    extends_ite (fun _ => .refl _) fun _ => h _) fun _ => .refl _

theorem placeEntry_extends (m : Mount) (dirc : ℕ) (fatBuf : FatBuf) (e : RawDirEntry)
    {fuel fuel' : ℕ} (h : fuel ≤ fuel') :
    (placeEntry m dirc fatBuf fuel e).Extends (placeEntry m dirc fatBuf fuel' e) :=
  (findSlot_extends m dirc fatBuf freeVerdict 0 h).bind fun _ => .refl _

variable {fuel fuel' : ℕ} (h : fuel ≤ fuel') (st : Driver) (name : CString)
include h

theorem fatRead_extends (buf : ℕ → UInt8) (bufSize : ℕ) :
    (fatRead fuel st name buf bufSize).Extends (fatRead fuel' st name buf bufSize) := by
  refine withFat_extends _ _ _ fun fatBuf => ?_
  refine (findSlot_extends _ _ _ _ _ h).bind fun found => ?_
  cases found with
  | none => exact .refl _
  | some hit =>
      exact extends_ite (fun _ => .refl _) fun _ =>
        (readChain_extends _ _ _ _ _ _ _ h).bind fun _ => .refl _

theorem removeEntry_extends (owner : Owner) (verdict : RawDirEntry → Verdict) :
    (removeEntry owner verdict fuel st).Extends (removeEntry owner verdict fuel' st) := by
  refine withFat_extends _ _ _ fun fatBuf => ?_
  refine (findSlot_extends _ _ _ _ _ h).bind fun found => ?_
  cases found with
  | none => exact .refl _
  | some hit => exact (freeChain_extends _ _ h).bind fun _ => .refl _

theorem fatRename_extends (newName : CString) :
    (fatRename fuel st name newName).Extends (fatRename fuel' st name newName) := by
  dsimp only [fatRename]
  refine withFat_extends _ _ _ fun fatBuf => ?_
  exact (findSlot_extends _ _ _ _ _ h).bind fun _ => .refl _

theorem storeFile_extends (data : ℕ → UInt8) (size : ℕ) :
    (storeFile fuel st name data size).Extends (storeFile fuel' st name data size) := by
  refine withFat_extends _ _ _ fun fatBuf => ?_
  refine (writeClusters_extends _ _ _ _ _ _ _ _ _ h).bind fun alloc => ?_
  refine extends_ite (fun _ => ?_) fun _ => .refl _
  refine (Extends.refl _).bind fun r => extends_ite (fun _ => .refl _) fun _ => ?_
  exact (placeEntry_extends _ _ _ _ h).bind fun _ => .refl _

theorem fatMkdirTaken_extends :
    (fatMkdirTaken fuel st name).Extends (fatMkdirTaken fuel' st name) := by
  refine withFat_extends _ _ _ fun fatBuf => ?_
  refine (Extends.refl _).bind fun newCluster => extends_ite (fun _ => .refl _) fun _ => ?_
  refine (Extends.refl _).bind fun r => extends_ite (fun _ => .refl _) fun _ => ?_
  refine (Extends.refl _).bind fun r => extends_ite (fun _ => .refl _) fun _ => ?_
  exact (placeEntry_extends _ _ _ _ h).bind fun _ => .refl _

theorem fatCd_extends : (fatCd fuel st name).Extends (fatCd fuel' st name) := by
  unfold fatCd
  refine extends_ite (fun _ => .refl _) fun _ => withFat_extends _ _ _ fun fatBuf => ?_
  exact (findSlot_extends _ _ _ _ _ h).bind fun _ => .refl _

end MasterOS.Fat
