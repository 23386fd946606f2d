/-
# 8.3 names

The driver stores a name as eight base bytes and three extension bytes, padded
with spaces. `split83` produces that form from the string a caller passes and
`makeName` rebuilds a string from a stored record; lookups compare the rebuilt
string with the caller's, ignoring ASCII case.

The central fact is that the two conversions compose to the upper-cased front of the
name, so a record stored under a name is found under it exactly when the name fits. A
valid 8.3 name does.
-/

import MasterOS.Fat.Layout
import Mathlib.Data.List.TakeWhile
import Mathlib.Data.List.OfFn

namespace MasterOS.Fat

/-- A NUL-terminated string, given by the bytes before the terminator. -/
structure CString where
  chars : List UInt8
  noNul : ∀ b ∈ chars, b ≠ 0

/-- `k_toupper` on a byte. -/
def kToupper (c : UInt8) : UInt8 :=
  if 0x61 ≤ c ∧ c ≤ 0x7A then c - 32 else c

/-- `k_strcmp_nocase`. Both arguments are read up to their first NUL byte; the
end of a list is its terminator. -/
def kStrcmpNocase : List UInt8 → List UInt8 → ℤ
  | a :: as, b :: bs =>
      if a ≠ 0 ∧ b ≠ 0 then
        if kToupper a ≠ kToupper b then (kToupper a).toNat - (kToupper b).toNat
        else kStrcmpNocase as bs
      else (kToupper a).toNat - (kToupper b).toNat
  | a :: _, [] => (kToupper a).toNat
  | [], b :: _ => -(kToupper b).toNat
  | [], [] => 0

/-- `make_name`: the bytes written before the terminating NUL. -/
def makeName (rawName : Fin 8 → UInt8) (rawExt : Fin 3 → UInt8) : List UInt8 :=
  let base := (List.ofFn rawName).takeWhile (· != 0x20)
  if (List.ofFn rawExt).any (· != 0x20) then
    base ++ 0x2E :: (List.ofFn rawExt).takeWhile (· != 0x20)
  else base

/-- `split_83`: base and extension, upper-cased and padded with spaces. -/
def split83 (name : CString) : (Fin 8 → UInt8) × (Fin 3 → UInt8) :=
  let base := (name.chars.takeWhile (· != 0x2E)).take 8
  let rest := name.chars.drop base.length
  let ext := if rest.head? = some 0x2E then (rest.drop 1).take 3 else []
  (fun k => (base.map kToupper).getD k 0x20, fun k => (ext.map kToupper).getD k 0x20)

/-- `k_strcmp_nocase(entry_name, name) == 0` for the name of a record. -/
def RawDirEntry.matches (e : RawDirEntry) (name : CString) : Bool :=
  kStrcmpNocase (makeName e.name e.ext) name.chars == 0

/-- A valid 8.3 name: a base of one to eight bytes and possibly an extension of
one to three, no byte a dot or a space, and a first byte that does not read as
the deletion mark. -/
def Valid83 (name : CString) : Prop :=
  ∃ base ext : List UInt8,
    name.chars = base ++ (if ext = [] then [] else 0x2E :: ext) ∧
    1 ≤ base.length ∧ base.length ≤ 8 ∧ ext.length ≤ 3 ∧
    (∀ b ∈ base ++ ext, b ≠ 0x2E ∧ b ≠ 0x20) ∧ base.head? ≠ some 0xE5

/-! ## Comparison -/

/-- The bytes a C string function reads: those before the first NUL. -/
def cstr (chars : List UInt8) : List UInt8 := chars.takeWhile (· != 0)

theorem kToupper_toNat (c : UInt8) :
    (kToupper c).toNat =
      if 97 ≤ c.toNat ∧ c.toNat ≤ 122 then c.toNat - 32 else c.toNat := by
  have hlow : (0x61 ≤ c) ↔ 97 ≤ c.toNat := UInt8.le_iff_toNat_le
  have hhigh : (c ≤ 0x7A) ↔ c.toNat ≤ 122 := UInt8.le_iff_toNat_le
  unfold kToupper
  simp only [hlow, hhigh]
  split_ifs with h
  · have h32 : (32 : UInt8) ≤ c := UInt8.le_iff_toNat_le.mpr (le_trans (by decide) h.1)
    rw [UInt8.toNat_sub_of_le _ _ h32]
    rfl
  · rfl

@[simp]
theorem kToupper_idem (c : UInt8) : kToupper (kToupper c) = kToupper c := by
  apply UInt8.toNat_inj.mp
  rw [kToupper_toNat, kToupper_toNat]
  split_ifs <;> omega

theorem kToupper_ne_zero {c : UInt8} (h : c ≠ 0) : kToupper c ≠ 0 := by
  have hc : c.toNat ≠ 0 := fun h0 => h (UInt8.toNat_inj.mp h0)
  intro h0
  have h1 : (kToupper c).toNat = 0 := by rw [h0]; rfl
  rw [kToupper_toNat] at h1
  split_ifs at h1 <;> omega

/-- Upper-casing neither makes nor removes a byte that is no letter. -/
theorem kToupper_eq_iff {c b : UInt8} (hb : b.toNat < 65 ∨ 122 < b.toNat) :
    kToupper c = b ↔ c = b := by
  rw [← UInt8.toNat_inj, ← UInt8.toNat_inj, kToupper_toNat]
  split_ifs <;> omega

/-- Two strings compare equal exactly when they agree up to ASCII case. -/
theorem kStrcmpNocase_eq_zero_iff (a b : List UInt8) :
    kStrcmpNocase a b = 0 ↔ (cstr a).map kToupper = (cstr b).map kToupper := by
  have hne {x y : UInt8} (h : kToupper x ≠ kToupper y) :
      ((kToupper x).toNat : ℤ) - (kToupper y).toNat ≠ 0 := by
    have : (kToupper x).toNat ≠ (kToupper y).toNat := fun h' => h (UInt8.toNat_inj.mp h')
    omega
  have hzero {x : UInt8} (h : x ≠ 0) : (kToupper x).toNat ≠ 0 := fun h' =>
    kToupper_ne_zero h (UInt8.toNat_inj.mp h')
  have hup0 : (kToupper 0).toNat = 0 := by decide
  induction a generalizing b with
  | nil =>
      cases b with
      | nil => simp [kStrcmpNocase]
      | cons y ys =>
          by_cases hy : y = 0
          · simp [kStrcmpNocase, cstr, hy, hup0]
          · have := hzero hy
            simp [kStrcmpNocase, cstr, hy, this]
  | cons x xs ih =>
      cases b with
      | nil =>
          by_cases hx : x = 0
          · simp [kStrcmpNocase, cstr, hx, hup0]
          · have := hzero hx
            simp [kStrcmpNocase, cstr, hx, this]
      | cons y ys =>
          by_cases hx : x = 0
          · by_cases hy : y = 0
            · simp [kStrcmpNocase, cstr, hx, hy]
            · have := hzero hy
              simp [kStrcmpNocase, cstr, hx, hy, hup0, this]
          · by_cases hy : y = 0
            · have := hzero hx
              simp [kStrcmpNocase, cstr, hx, hy, hup0, this]
            · by_cases hxy : kToupper x = kToupper y
              · have htail := ih ys
                simpa [kStrcmpNocase, cstr, hx, hy, hxy] using htail
              · have := hne hxy
                simp [kStrcmpNocase, cstr, hx, hy, hxy, this]

theorem cstr_chars (name : CString) : cstr name.chars = name.chars := by
  apply List.takeWhile_eq_self_iff.mpr
  intro b hb
  simpa using name.noNul b hb

/-- A record matches a name exactly when its rebuilt name agrees up to case. -/
theorem RawDirEntry.matches_iff (e : RawDirEntry) (name : CString) :
    e.matches name = true ↔
      (cstr (makeName e.name e.ext)).map kToupper = name.chars.map kToupper := by
  rw [RawDirEntry.matches, beq_iff_eq, kStrcmpNocase_eq_zero_iff, cstr_chars]

/-! ## Splitting and rebuilding -/

/-- Padding with spaces is undone by reading up to the first space. -/
theorem takeWhile_padded (n : ℕ) (l : List UInt8) (hlen : l.length ≤ n)
    (hspace : ∀ b ∈ l, b ≠ 0x20) :
    (List.ofFn fun k : Fin n => l.getD k 0x20).takeWhile (· != 0x20) = l := by
  induction n generalizing l with
  | zero =>
      have : l = [] := List.length_eq_zero_iff.mp (Nat.le_zero.mp hlen)
      simp [this]
  | succ n ih =>
      cases l with
      | nil => simp [List.ofFn_succ]
      | cons b rest =>
          have hb : b ≠ 0x20 := hspace b List.mem_cons_self
          have hrest := ih rest (by simpa using hlen)
            fun x hx => hspace x (List.mem_cons_of_mem _ hx)
          simpa [List.ofFn_succ, hb] using hrest

theorem any_padded (n : ℕ) (l : List UInt8) (hlen : l.length ≤ n)
    (hspace : ∀ b ∈ l, b ≠ 0x20) :
    (List.ofFn fun k : Fin n => l.getD k 0x20).any (· != 0x20) = !l.isEmpty := by
  cases l with
  | nil => simp
  | cons b rest =>
      cases n with
      | zero => simp at hlen
      | succ n => simp [List.ofFn_succ, hspace b List.mem_cons_self]

/-- Rebuilding the stored form of a base and an extension. -/
theorem makeName_padded {base ext : List UInt8} (hbase : base.length ≤ 8)
    (hext : ext.length ≤ 3) (hspace : ∀ b ∈ base ++ ext, b ≠ 0x20) :
    makeName (fun k => base.getD k 0x20) (fun k => ext.getD k 0x20) =
      base ++ (if ext = [] then [] else 0x2E :: ext) := by
  have hb := takeWhile_padded 8 base hbase fun b h => hspace b (List.mem_append_left _ h)
  have hx := takeWhile_padded 3 ext hext fun b h => hspace b (List.mem_append_right _ h)
  have ha := any_padded 3 ext hext fun b h => hspace b (List.mem_append_right _ h)
  unfold makeName
  simp only [hb, hx, ha]
  cases ext <;> simp

/-- The first stored byte of any split name: the first character upper-cased, or
a space when the name is empty or starts with a dot. -/
theorem split83_fst_zero (name : CString) :
    (split83 name).1 0 = 0x20 ∨
      ∃ c rest, name.chars = c :: rest ∧ c ≠ 0x2E ∧ (split83 name).1 0 = kToupper c := by
  cases hchars : name.chars with
  | nil => left; simp [split83, hchars]
  | cons c rest =>
      by_cases hdot : c = 0x2E
      · left; simp [split83, hchars, hdot]
      · right
        exact ⟨c, rest, rfl, hdot, by simp [split83, hchars, hdot]⟩

/-- No split name starts with NUL or a dot, so the slot it is stored in neither
ends a directory nor reads as a dot entry. -/
theorem split83_fst_zero_ne (name : CString) :
    (split83 name).1 0 ≠ 0 ∧ (split83 name).1 0 ≠ 0x2E := by
  rcases split83_fst_zero name with h | ⟨c, rest, hchars, hdot, h⟩
  · rw [h]; decide
  · have hc : c ≠ 0 := name.noNul c (by rw [hchars]; exact List.mem_cons_self)
    rw [h]
    exact ⟨kToupper_ne_zero hc, fun h' => hdot ((kToupper_eq_iff (by decide)).mp h')⟩

/-- A name can be stored: no byte is a space, which is what a name is padded with, and the
first is not the deletion mark. -/
structure Storable (name : CString) : Prop where
  noSpace : ∀ b ∈ name.chars, b ≠ 0x20
  notDeleted : name.chars.head? ≠ some 0xE5

/-- Such a name is not stored as a deleted slot. -/
theorem Storable.split83_fst_zero_ne {name : CString} (h : Storable name) :
    (split83 name).1 0 ≠ 0xE5 := by
  rcases split83_fst_zero name with hspace | ⟨c, rest, hchars, -, hfirst⟩
  · rw [hspace]
    decide
  · rw [hfirst]
    intro hmark
    have hc : c = 0xE5 := (kToupper_eq_iff (by decide)).mp hmark
    exact h.notDeleted (by rw [hchars, hc]; rfl)

/-! ## Names that fit -/

/-- A name fits the stored form: at most eight bytes before the first dot, and behind it
one to three bytes, or no dot at all. -/
def Fits83 (name : CString) : Prop :=
  (name.chars.takeWhile (· != 0x2E)).length ≤ 8 ∧
    (name.chars.length = (name.chars.takeWhile (· != 0x2E)).length ∨
      (name.chars.takeWhile (· != 0x2E)).length + 2 ≤ name.chars.length ∧
        name.chars.length ≤ (name.chars.takeWhile (· != 0x2E)).length + 4)

instance (name : CString) : Decidable (Fits83 name) := by
  unfold Fits83
  infer_instance

/-- The part of a name that is stored: the base cut to eight bytes, and three bytes behind
a dot that follows it. -/
def storedPart (chars : List UInt8) : List UInt8 :=
  let base := (chars.takeWhile (· != 0x2E)).take 8
  let rest := chars.drop base.length
  let ext := if rest.head? = some 0x2E then (rest.drop 1).take 3 else []
  base ++ (if ext = [] then [] else 0x2E :: ext)

theorem storedPart_of_long {chars : List UInt8}
    (hlong : 8 < (chars.takeWhile (· != 0x2E)).length) :
    storedPart chars = (chars.takeWhile (· != 0x2E)).take 8 := by
  have hlen : ((chars.takeWhile (· != 0x2E)).take 8).length = 8 :=
    List.length_take_of_le hlong.le
  have hhead : (chars.drop 8).head? ≠ some 0x2E := by
    rw [List.head?_drop]
    intro hdot
    obtain ⟨hlt, hget⟩ := List.getElem?_eq_some_iff.mp hdot
    have hsame := (List.takeWhile_prefix (l := chars) (· != 0x2E)).getElem hlong
    have hmem := List.mem_takeWhile_imp (List.getElem_mem hlong)
    rw [hsame, hget] at hmem
    exact absurd hmem (by decide)
  unfold storedPart
  simp only [hlen, if_neg hhead, if_true, List.append_nil]

section Short

variable {base : List UInt8} (hdot : ∀ b ∈ base, (b != 0x2E) = true) (hshort : base.length ≤ 8)
include hdot hshort

theorem storedPart_of_noDot : storedPart base = base := by
  have htake : base.takeWhile (· != 0x2E) = base := List.takeWhile_eq_self_iff.mpr hdot
  have hcut : base.take 8 = base := List.take_of_length_le hshort
  simp [storedPart, htake, hcut]

theorem storedPart_of_dot (tail : List UInt8) :
    storedPart (base ++ 0x2E :: tail) =
      base ++ (if tail.take 3 = [] then [] else 0x2E :: tail.take 3) := by
  have htake : (base ++ 0x2E :: tail).takeWhile (· != 0x2E) = base := by
    rw [List.takeWhile_append_of_pos hdot]
    simp
  have hcut : base.take 8 = base := List.take_of_length_le hshort
  simp only [storedPart, htake, hcut, List.drop_left, List.head?_cons, if_true, List.drop_one,
    List.tail_cons]

end Short

/-- A string has no dot, or a first one. -/
theorem exists_first_dot (chars : List UInt8) :
    ∃ base, chars.takeWhile (· != 0x2E) = base ∧ (∀ b ∈ base, (b != 0x2E) = true) ∧
      (chars = base ∨ ∃ tail, chars = base ++ 0x2E :: tail) := by
  have hsplit := List.takeWhile_append_dropWhile (p := (· != 0x2E)) (l := chars)
  refine ⟨_, rfl, fun b hb => List.mem_takeWhile_imp (p := (· != 0x2E)) hb, ?_⟩
  have hhead := List.head?_dropWhile_not (· != 0x2E) chars
  cases hrest : chars.dropWhile (· != 0x2E) with
  | nil =>
      left
      rw [hrest, List.append_nil] at hsplit
      exact hsplit.symm
  | cons b tail =>
      right
      rw [hrest] at hhead hsplit
      obtain rfl : b = 0x2E := by simpa using hhead
      exact ⟨tail, hsplit.symm⟩

/-- What is stored is the front of the name, and all of it when the name fits. -/
theorem storedPart_isPrefixOf (name : CString) :
    storedPart name.chars <+: name.chars ∧
      ((storedPart name.chars).length = name.chars.length ↔ Fits83 name) := by
  obtain ⟨base, hbase, hdot, hcases⟩ := exists_first_dot name.chars
  rw [Fits83, hbase]
  by_cases hshort : base.length ≤ 8
  · rcases hcases with hplain | ⟨tail, htail⟩
    · rw [hplain, storedPart_of_noDot hdot hshort]
      exact ⟨List.prefix_refl _, by omega⟩
    · rw [htail, storedPart_of_dot hdot hshort]
      have hlen : (tail.take 3).length = min 3 tail.length := List.length_take
      split_ifs with hnil
      · rw [hnil, List.length_nil] at hlen
        rw [List.append_nil, List.length_append, List.length_cons]
        exact ⟨List.prefix_append _ _, by omega⟩
      · have hpos := List.length_pos_iff.mpr hnil
        rw [List.length_append, List.length_append, List.length_cons, List.length_cons, hlen]
        refine ⟨List.prefix_append_right_inj _ |>.mpr ?_, by omega⟩
        exact List.cons_prefix_cons.mpr ⟨rfl, List.take_prefix _ _⟩
  · have hlong : 8 < (name.chars.takeWhile (· != 0x2E)).length := by
      rw [hbase]
      omega
    rw [storedPart_of_long hlong, hbase, List.length_take_of_le (by omega)]
    refine ⟨(List.take_prefix _ _).trans (hbase ▸ List.takeWhile_prefix _), ?_⟩
    have hle := (List.takeWhile_prefix (l := name.chars) (· != 0x2E)).length_le
    rw [hbase] at hle
    omega

/-- Rebuilding gives the part of the name that was stored, in upper case. -/
theorem makeName_split83 {name : CString} (hspace : ∀ b ∈ name.chars, b ≠ 0x20) :
    makeName (split83 name).1 (split83 name).2 = (storedPart name.chars).map kToupper := by
  let base := (name.chars.takeWhile (· != 0x2E)).take 8
  let rest := name.chars.drop base.length
  let ext := if rest.head? = some 0x2E then (rest.drop 1).take 3 else []
  have hbase : base <+: name.chars := (List.take_prefix _ _).trans (List.takeWhile_prefix _)
  have hext : ext.length ≤ 3 ∧ ∀ b ∈ ext, b ∈ name.chars := by
    dsimp only [ext]
    split_ifs
    · exact ⟨List.length_take_le _ _, fun b hb =>
        List.mem_of_mem_drop (List.mem_of_mem_drop (List.mem_of_mem_take hb))⟩
    · exact ⟨Nat.zero_le _, fun b hb => absurd hb List.not_mem_nil⟩
  have hnoSpace : ∀ b ∈ base.map kToupper ++ ext.map kToupper, b ≠ 0x20 := by
    intro b hb
    rw [← List.map_append, List.mem_map] at hb
    obtain ⟨c, hc, rfl⟩ := hb
    have hmem : c ∈ name.chars := by
      rcases List.mem_append.mp hc with hc | hc
      · exact hbase.subset hc
      · exact hext.2 c hc
    exact fun h => hspace c hmem ((kToupper_eq_iff (by decide)).mp h)
  have hbaseLen : (base.map kToupper).length ≤ 8 := by
    rw [List.length_map]
    exact List.length_take_le _ _
  have hextLen : (ext.map kToupper).length ≤ 3 := by
    rw [List.length_map]
    exact hext.1
  have hrebuilt := makeName_padded hbaseLen hextLen hnoSpace
  refine Eq.trans hrebuilt ?_
  show _ = (base ++ (if ext = [] then [] else 0x2E :: ext)).map kToupper
  rw [List.map_append]
  split_ifs with hmap hnil hnil
  · rfl
  · exact absurd (List.map_eq_nil_iff.mp hmap) hnil
  · exact absurd (List.map_eq_nil_iff.mpr hnil) hmap
  · rfl

/-- All of a name that fits is stored. -/
theorem Fits83.storedPart_eq {name : CString} (h : Fits83 name) :
    storedPart name.chars = name.chars :=
  (storedPart_isPrefixOf name).1.eq_of_length ((storedPart_isPrefixOf name).2.mpr h)

/-- **A name finds the record stored under it exactly when it fits.** -/
theorem matches_split83_iff {name : CString} (hspace : ∀ b ∈ name.chars, b ≠ 0x20) :
    (cstr (makeName (split83 name).1 (split83 name).2)).map kToupper = name.chars.map kToupper ↔
      Fits83 name := by
  obtain ⟨hpre, hlen⟩ := storedPart_isPrefixOf name
  have hcstr : cstr ((storedPart name.chars).map kToupper) =
      (storedPart name.chars).map kToupper := by
    apply List.takeWhile_eq_self_iff.mpr
    intro b hb
    obtain ⟨c, hc, rfl⟩ := List.mem_map.mp hb
    simpa using kToupper_ne_zero (name.noNul c (hpre.subset hc))
  have hidem : kToupper ∘ kToupper = kToupper := funext kToupper_idem
  rw [makeName_split83 hspace, hcstr, List.map_map, hidem, ← hlen]
  constructor
  · intro hsame
    have := congrArg List.length hsame
    rwa [List.length_map, List.length_map] at this
  · intro hsame
    rw [hpre.eq_of_length hsame]

/-- A valid name does not start with a dot. -/
theorem Valid83.head_ne_dot {name : CString} (valid : Valid83 name) :
    name.chars.head? ≠ some 0x2E := by
  obtain ⟨base, ext, hname, hpos, -, -, hbytes, -⟩ := valid
  cases base with
  | nil => exact absurd hpos (by decide)
  | cons b base =>
      rw [hname]
      intro hdot
      exact (hbytes b List.mem_cons_self).1 (Option.some.inj hdot)

/-- A valid name can be stored, and fits. -/
theorem Valid83.fits {name : CString} (valid : Valid83 name) : Storable name ∧ Fits83 name := by
  obtain ⟨base, ext, hname, hpos, hbase, hext, hbytes, hhead⟩ := valid
  have hdot : ∀ b ∈ base, (b != 0x2E) = true := fun b hb => by
    simpa using (hbytes b (List.mem_append_left _ hb)).1
  have htake : name.chars.takeWhile (· != 0x2E) = base := by
    rw [hname, List.takeWhile_append_of_pos hdot]
    split_ifs <;> simp
  refine ⟨⟨fun b hb => ?_, ?_⟩, ?_⟩
  · rw [hname] at hb
    rcases List.mem_append.mp hb with hb | hb
    · exact (hbytes b (List.mem_append_left _ hb)).2
    · split_ifs at hb
      · exact absurd hb List.not_mem_nil
      · rcases List.mem_cons.mp hb with rfl | hb
        · decide
        · exact (hbytes b (List.mem_append_right _ hb)).2
  · cases base with
    | nil => exact absurd hpos (by decide)
    | cons b base =>
        rw [hname]
        exact hhead
  · rw [Fits83, htake, hname, List.length_append]
    split_ifs with hnil
    · exact ⟨hbase, Or.inl (Nat.add_zero _)⟩
    · have := List.length_pos_iff.mpr hnil
      rw [List.length_cons]
      omega

end MasterOS.Fat
