/-
# The 8.3 codec

`split83` encodes a name and `makeName` decodes it. On names of a base and possibly an
extension the two compose to the upper case of the name, and on records whose parts are
padded texts in upper case to the same record. The comparison of names identifies exactly
what the encoder does.
-/

import MasterOS.Fat.Names
import Mathlib.Data.List.GetD

namespace MasterOS.Fat

/-- A byte, or its capital when it is a small ASCII letter. -/
def asciiUpper (c : UInt8) : UInt8 := UInt8.ofNat (Char.ofNat c.toNat).toUpper.toNat

/-- A name of one to eight bytes, and possibly a dot and one to three bytes behind it. -/
structure ShortName where
  base : List UInt8
  ext : List UInt8
  base_pos : 1 ≤ base.length
  base_le : base.length ≤ 8
  ext_le : ext.length ≤ 3
  byte : ∀ b ∈ base ++ ext, b ≠ 0 ∧ b ≠ 0x2E ∧ b ≠ 0x20

/-- A base, and a dot before the extension when there is one. -/
def joined (base ext : List UInt8) : List UInt8 := base ++ if ext = [] then [] else 0x2E :: ext

theorem map_joined (f : UInt8 → UInt8) (hdot : f 0x2E = 0x2E) (base ext : List UInt8) :
    (joined base ext).map f = joined (base.map f) (ext.map f) := by
  rw [joined, joined, List.map_append]
  cases ext with
  | nil => rfl
  | cons b rest => rw [if_neg (List.cons_ne_nil b rest), List.map_cons, hdot]; rfl

theorem mem_joined {base ext : List UInt8} {b : UInt8} (h : b ∈ joined base ext) :
    b = 0x2E ∨ b ∈ base ++ ext := by
  rcases List.mem_append.mp h with h | h
  · exact Or.inr (List.mem_append_left _ h)
  · split_ifs at h
    · exact absurd h List.not_mem_nil
    · exact (List.mem_cons.mp h).imp_right (List.mem_append_right _)

/-- A short name as the driver gets it. -/
def ShortName.toCString (n : ShortName) : CString where
  chars := joined n.base n.ext
  noNul b hb := by
    rcases mem_joined hb with rfl | hb
    · decide
    · exact (n.byte b hb).1

/-- One part of a record: bytes of a name without small letters, and spaces behind them. -/
structure Padded {n : ℕ} (raw : Fin n → UInt8) : Prop where
  spaces : ∀ i j, i ≤ j → raw i = 0x20 → raw j = 0x20
  noNul : ∀ k, raw k ≠ 0
  noDot : ∀ k, raw k ≠ 0x2E
  noLower : ∀ k, ¬ (0x61 ≤ raw k ∧ raw k ≤ 0x7A)

/-- The name fields of a record that `make_name` turns into a short name. -/
structure StoredName where
  rawName : Fin 8 → UInt8
  rawExt : Fin 3 → UInt8
  name : Padded rawName
  ext : Padded rawExt
  nonempty : rawName 0 ≠ 0x20

/-! ## Names to records -/

theorem kToupper_eq_asciiUpper (c : UInt8) : kToupper c = asciiUpper c := by
  have hall : ∀ n < 256, kToupper (UInt8.ofNat n) = asciiUpper (UInt8.ofNat n) := by
    decide +kernel
  rw [← UInt8.ofNat_toNat (x := c)]
  exact hall c.toNat c.toNat_lt

/-- A text with spaces behind it. -/
def padded (n : ℕ) (text : List UInt8) : Fin n → UInt8 := fun k => text.getD k 0x20

/-- The record of a base and an extension. -/
theorem split83_joined {base ext : List UInt8} (hbase : base.length ≤ 8) (hext : ext.length ≤ 3)
    (hdot : ∀ b ∈ base, (b != 0x2E) = true) (hnul : ∀ b ∈ joined base ext, b ≠ 0) :
    split83 ⟨joined base ext, hnul⟩ =
      (padded 8 (base.map kToupper), padded 3 (ext.map kToupper)) := by
  have htake : ((joined base ext).takeWhile (· != 0x2E)).take 8 = base := by
    rw [joined, List.takeWhile_append_of_pos hdot]
    split_ifs <;> simp [List.take_of_length_le hbase]
  have hdrop : (joined base ext).drop base.length = if ext = [] then [] else 0x2E :: ext :=
    List.drop_left
  have hcut : (if (if ext = [] then [] else 0x2E :: ext).head? = some 0x2E then
      ((if ext = [] then [] else 0x2E :: ext).drop 1).take 3 else []) = ext := by
    cases ext with
    | nil => rfl
    | cons b rest => exact List.take_of_length_le hext
  simp only [split83, htake, hdrop, hcut]
  rfl

/-- The record of a short name. -/
theorem ShortName.split83_eq (n : ShortName) : split83 n.toCString =
    (padded 8 (n.base.map kToupper), padded 3 (n.ext.map kToupper)) :=
  split83_joined n.base_le n.ext_le
    (fun b hb => bne_iff_ne.mpr (n.byte b (List.mem_append_left _ hb)).2.1) _

theorem not_lower_kToupper (c : UInt8) : ¬ (0x61 ≤ kToupper c ∧ kToupper c ≤ 0x7A) := by
  rw [UInt8.le_iff_toNat_le, UInt8.le_iff_toNat_le, kToupper_toNat,
    show (0x61 : UInt8).toNat = 97 from rfl, show (0x7A : UInt8).toNat = 122 from rfl]
  split_ifs <;> omega

/-- One part of a short name is padded. -/
theorem padded_upper {n : ℕ} {text : List UInt8}
    (htext : ∀ b ∈ text, b ≠ 0 ∧ b ≠ 0x2E ∧ b ≠ 0x20) : Padded (padded n (text.map kToupper)) := by
  have hcases (k : Fin n) : text.length ≤ k ∧ padded n (text.map kToupper) k = 0x20 ∨
      ∃ b ∈ text, padded n (text.map kToupper) k = kToupper b := by
    rcases le_or_gt text.length k with hle | hlt
    · exact Or.inl ⟨hle, List.getD_eq_default _ _ (by rwa [List.length_map])⟩
    · refine Or.inr ⟨text[(k : ℕ)], List.getElem_mem hlt, ?_⟩
      rw [padded, List.getD_eq_getElem _ _ (by rwa [List.length_map]), List.getElem_map]
  have hall (P : UInt8 → Prop) (hspace : P 0x20) (hbyte : ∀ b ∈ text, P (kToupper b))
      (k : Fin n) : P (padded n (text.map kToupper) k) := by
    rcases hcases k with ⟨-, hpad⟩ | ⟨b, hb, hup⟩
    · rwa [hpad]
    · rw [hup]
      exact hbyte b hb
  refine ⟨fun i j hij hi => ?_, hall (· ≠ 0) (by decide) fun b hb => ?_,
    hall (· ≠ 0x2E) (by decide) fun b hb hdot => ?_,
    hall (fun c => ¬ (0x61 ≤ c ∧ c ≤ 0x7A)) (by decide) fun b _ => not_lower_kToupper b⟩
  · rcases hcases i with ⟨hle, -⟩ | ⟨b, hb, hup⟩
    · exact List.getD_eq_default _ _ (by rw [List.length_map]; exact hle.trans hij)
    · exact absurd ((kToupper_eq_iff (by decide)).mp (hup.symm.trans hi)) (htext b hb).2.2
  · exact kToupper_ne_zero (htext b hb).1
  · exact (htext b hb).2.1 ((kToupper_eq_iff (by decide)).mp hdot)

theorem ShortName.padded_base (n : ShortName) : Padded (split83 n.toCString).1 := by
  rw [n.split83_eq]
  exact padded_upper fun b hb => n.byte b (List.mem_append_left _ hb)

theorem ShortName.padded_ext (n : ShortName) : Padded (split83 n.toCString).2 := by
  rw [n.split83_eq]
  exact padded_upper fun b hb => n.byte b (List.mem_append_right _ hb)

theorem ShortName.head_ne_space (n : ShortName) : (split83 n.toCString).1 0 ≠ 0x20 := by
  obtain ⟨b, rest, hbase⟩ := List.exists_cons_of_length_pos n.base_pos
  have hb : b ∈ n.base ++ n.ext := by
    rw [hbase]
    exact List.mem_cons_self
  rw [n.split83_eq, hbase]
  exact fun hspace => (n.byte b hb).2.2 ((kToupper_eq_iff (by decide)).mp hspace)

/-- The record of a short name is one that can be read back. -/
def ShortName.record (n : ShortName) : StoredName :=
  ⟨_, _, n.padded_base, n.padded_ext, n.head_ne_space⟩

/-- A short name is rebuilt in upper case. -/
theorem ShortName.makeName_split83 (n : ShortName) :
    makeName (split83 n.toCString).1 (split83 n.toCString).2 =
      n.toCString.chars.map kToupper := by
  have hspace : ∀ b ∈ n.base.map kToupper ++ n.ext.map kToupper, b ≠ 0x20 := by
    intro b hb
    rw [← List.map_append, List.mem_map] at hb
    obtain ⟨c, hc, rfl⟩ := hb
    exact fun h => (n.byte c hc).2.2 ((kToupper_eq_iff (by decide)).mp h)
  rw [n.split83_eq]
  refine (makeName_padded ?_ ?_ hspace).trans (map_joined kToupper rfl n.base n.ext).symm
  · rw [List.length_map]
    exact n.base_le
  · rw [List.length_map]
    exact n.ext_le

theorem ShortName.length_le (n : ShortName) : n.toCString.chars.length ≤ 12 := by
  have hbase := n.base_le
  have hext := n.ext_le
  show (joined n.base n.ext).length ≤ 12
  rw [joined, List.length_append]
  split_ifs
  · exact hbase.trans (by decide)
  · rw [List.length_cons]
    omega

/-! ## Records to names -/

/-- The text in front of the padding. -/
def unpadded {n : ℕ} (raw : Fin n → UInt8) : List UInt8 :=
  (List.ofFn raw).takeWhile (· != 0x20)

theorem length_unpadded_le {n : ℕ} (raw : Fin n → UInt8) : (unpadded raw).length ≤ n := by
  have h := (List.takeWhile_prefix (l := List.ofFn raw) (· != 0x20)).length_le
  rwa [List.length_ofFn] at h

theorem mem_unpadded {n : ℕ} {raw : Fin n → UInt8} {b : UInt8} (h : b ∈ unpadded raw) :
    b ≠ 0x20 ∧ ∃ k, raw k = b := by
  have hne : (b != 0x20) = true := List.mem_takeWhile_imp (p := (· != 0x20)) h
  refine ⟨bne_iff_ne.mp hne, ?_⟩
  exact List.mem_ofFn.mp ((List.takeWhile_prefix _).subset h)

/-- A padded part is its text with spaces behind it. -/
theorem Padded.padded_unpadded {n : ℕ} {raw : Fin n → UInt8} (h : Padded raw) :
    padded n (unpadded raw) = raw := by
  induction n with
  | zero => exact funext fun k => k.elim0
  | succ n ih =>
      by_cases hspace : raw 0 = 0x20
      · have hnil : unpadded raw = [] := by
          rw [unpadded, List.ofFn_succ, List.takeWhile_cons_of_neg (by simp [hspace])]
        funext k
        rw [hnil, h.spaces 0 k (Fin.zero_le k) hspace]
        rfl
      · have htail : Padded fun k => raw k.succ :=
          ⟨fun i j hij => h.spaces _ _ (Fin.succ_le_succ_iff.mpr hij), fun k => h.noNul _,
            fun k => h.noDot _, fun k => h.noLower _⟩
        have hcons : unpadded raw = raw 0 :: unpadded fun k => raw k.succ := by
          have hne : (raw 0 != 0x20) = true := bne_iff_ne.mpr hspace
          rw [unpadded, List.ofFn_succ, List.takeWhile_cons_of_pos (p := (· != 0x20)) hne]
          rfl
        funext k
        refine Fin.cases ?_ (fun k => ?_) k
        · rw [hcons]
          rfl
        · have hk := congrFun (ih htail) k
          rw [hcons]
          exact hk

/-- Reading a record writes its two texts. -/
theorem StoredName.makeName_eq (r : StoredName) :
    makeName r.rawName r.rawExt = joined (unpadded r.rawName) (unpadded r.rawExt) := by
  have hspace : ∀ b ∈ unpadded r.rawName ++ unpadded r.rawExt, b ≠ 0x20 := by
    intro b hb
    rcases List.mem_append.mp hb with hb | hb
    · exact (mem_unpadded hb).1
    · exact (mem_unpadded hb).1
  calc makeName r.rawName r.rawExt
      = makeName (padded 8 (unpadded r.rawName)) (padded 3 (unpadded r.rawExt)) := by
        rw [r.name.padded_unpadded, r.ext.padded_unpadded]
    _ = joined (unpadded r.rawName) (unpadded r.rawExt) :=
        makeName_padded (length_unpadded_le _) (length_unpadded_le _) hspace

/-- No byte of the name is NUL. -/
theorem StoredName.makeName_ne_zero (r : StoredName) :
    ∀ b ∈ makeName r.rawName r.rawExt, b ≠ 0 := by
  intro b hb
  rw [r.makeName_eq] at hb
  rcases mem_joined hb with rfl | hb
  · decide
  · rcases List.mem_append.mp hb with hb | hb
    · obtain ⟨-, k, rfl⟩ := mem_unpadded hb
      exact r.name.noNul k
    · obtain ⟨-, k, rfl⟩ := mem_unpadded hb
      exact r.ext.noNul k

/-- The name of a record as the driver gets it. -/
def StoredName.toCString (r : StoredName) : CString :=
  ⟨makeName r.rawName r.rawExt, r.makeName_ne_zero⟩

/-- A text without small letters stays as it is. -/
theorem Padded.map_kToupper {n : ℕ} {raw : Fin n → UInt8} (h : Padded raw) :
    (unpadded raw).map kToupper = unpadded raw := by
  have hsame : ∀ b ∈ unpadded raw, kToupper b = id b := by
    intro b hb
    obtain ⟨-, k, rfl⟩ := mem_unpadded hb
    exact if_neg (h.noLower k)
  rw [List.map_congr_left hsame, List.map_id]

/-- A record is encoded back from its name. -/
theorem StoredName.split83_eq (r : StoredName) :
    split83 r.toCString = (r.rawName, r.rawExt) := by
  have hjoined : r.toCString = ⟨joined (unpadded r.rawName) (unpadded r.rawExt),
      r.makeName_eq ▸ r.makeName_ne_zero⟩ := CString.mk.injEq _ _ _ _ ▸ r.makeName_eq
  have hdot : ∀ b ∈ unpadded r.rawName, (b != 0x2E) = true := by
    intro b hb
    obtain ⟨-, k, rfl⟩ := mem_unpadded hb
    exact bne_iff_ne.mpr (r.name.noDot k)
  rw [hjoined, split83_joined (length_unpadded_le _) (length_unpadded_le _) hdot,
    r.name.map_kToupper, r.ext.map_kToupper, r.name.padded_unpadded, r.ext.padded_unpadded]

/-! ## The codec -/

/-- **The codec.** Encoding and decoding a short name gives it in upper case, within the
thirteen bytes there are with the terminator, and the comparison with another name says
whether the two are the same but for the case of ASCII letters. Decoding and encoding a
record gives the same record. -/
theorem shortName_codec (a b : ShortName) (r : StoredName) :
    let rebuilt := makeName (split83 a.toCString).1 (split83 a.toCString).2
    rebuilt.length + 1 ≤ 13 ∧ rebuilt = a.toCString.chars.map asciiUpper ∧
      (kStrcmpNocase rebuilt b.toCString.chars = 0 ↔
        a.toCString.chars.map asciiUpper = b.toCString.chars.map asciiUpper) ∧
      split83 r.toCString = (r.rawName, r.rawExt) := by
  have hupper : kToupper = asciiUpper := funext kToupper_eq_asciiUpper
  have hidem : kToupper ∘ kToupper = kToupper := funext kToupper_idem
  have hcstr : cstr (a.toCString.chars.map kToupper) = a.toCString.chars.map kToupper := by
    apply List.takeWhile_eq_self_iff.mpr
    intro c hc
    obtain ⟨d, hd, rfl⟩ := List.mem_map.mp hc
    exact bne_iff_ne.mpr (kToupper_ne_zero (a.toCString.noNul d hd))
  dsimp only
  rw [a.makeName_split83, kStrcmpNocase_eq_zero_iff, cstr_chars, hcstr, List.map_map, hidem,
    List.length_map, ← hupper]
  exact ⟨Nat.succ_le_succ a.length_le, rfl, Iff.rfl, r.split83_eq⟩

/-- `readme.txt` -/
def readmeTxt : ShortName where
  base := [0x72, 0x65, 0x61, 0x64, 0x6D, 0x65]
  ext := [0x74, 0x78, 0x74]
  base_pos := by decide
  base_le := by decide
  ext_le := by decide
  byte := by decide +kernel

/-- `README.TXT` -/
def readmeTxtUpper : ShortName where
  base := [0x52, 0x45, 0x41, 0x44, 0x4D, 0x45]
  ext := [0x54, 0x58, 0x54]
  base_pos := by decide
  base_le := by decide
  ext_le := by decide
  byte := by decide +kernel

/-- `readme.txt` comes back as `README.TXT`, which compares equal, and so does its record. -/
theorem shortName_codec_readme :
    makeName (split83 readmeTxt.toCString).1 (split83 readmeTxt.toCString).2 =
        readmeTxtUpper.toCString.chars ∧
      kStrcmpNocase (makeName (split83 readmeTxt.toCString).1 (split83 readmeTxt.toCString).2)
        readmeTxtUpper.toCString.chars = 0 ∧
      split83 readmeTxt.record.toCString = split83 readmeTxt.toCString := by
  obtain ⟨-, hrebuilt, hcompare, hrecord⟩ :=
    shortName_codec readmeTxt readmeTxtUpper readmeTxt.record
  have hupper : readmeTxt.toCString.chars.map asciiUpper = readmeTxtUpper.toCString.chars := by
    decide +kernel
  have hsame : readmeTxtUpper.toCString.chars.map asciiUpper = readmeTxtUpper.toCString.chars := by
    decide +kernel
  exact ⟨hrebuilt.trans hupper, hcompare.mpr (hupper.trans hsame.symm), hrecord⟩

end MasterOS.Fat
