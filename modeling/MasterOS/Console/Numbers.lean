/-
# Numbers on the screen

Three loops turn a number into digits, each in a buffer of its own: `print_uint` and
`printf_number` fill theirs with the lowest digit first and print it from the end, and
`printHex` fills its string from the end. Every access to a buffer is checked here. What is
printed is the number in positional notation, and no index is outside.
-/

import MasterOS.Console.Shell
import MasterOS.Stdlib.Printf
import Mathlib.Data.Nat.Digits.Lemmas

namespace MasterOS.Console

open MasterOS.Stdlib

/-! ## The code -/

section Buffers

variable {k : ℕ}

/-- A store into an array, if the index is one of the array. -/
def store (buf : Vector UInt8 k) (i : ℕ) (c : UInt8) : Option (Vector UInt8 k) :=
  if h : i < k then some (buf.set i c h) else none

/-- The loops that print the first `n` places of a buffer from the last one down, with what
is output for a place. -/
def printBack (out : UInt8 → List UInt8) (buf : Vector UInt8 k) : ℕ → Option (List UInt8)
  | 0 => some []
  | n + 1 => do
      let c ← buf[n]?
      let rest ← printBack out buf n
      some (out c ++ rest)

/-- `print` of an array: what is in front of the first NUL, if there is one. -/
def printArray (buf : Vector UInt8 k) : Option (List UInt8) :=
  if 0 ∈ buf.toList then some (buf.toList.takeWhile (· ≠ 0)) else none

end Buffers

/-- The loop of `print_uint` that fills `tmp`. -/
def fillTmp (tmp : Vector UInt8 12) (i : ℕ) (n : UInt32) : Option (Vector UInt8 12 × ℕ) :=
  if n = 0 then some (tmp, i)
  else if h : i < 12 then fillTmp (tmp.set i (0x30 + n % 10).toUInt8 h) (i + 1) (n / 10)
  else none
termination_by 12 - i

/-- What `print` outputs for a string of one character. -/
def printChar (c : UInt8) : List UInt8 := [c, 0].takeWhile (· ≠ 0)

/-- `print_uint`, with what is in `tmp` before. Each digit is printed as a string. -/
def printUint (tmp : Vector UInt8 12) (n : UInt32) : Option (List UInt8) :=
  if n = 0 then some [byte '0']
  else do
    let (tmp, i) ← fillTmp tmp 0 n
    printBack printChar tmp i

/-- The loop of `printf_number` that fills `buffer`. -/
def fillBuffer (radix : UInt32) (buffer : Vector UInt8 32) (pos : ℕ) (number : UInt32) :
    Option (Vector UInt8 32 × ℕ) :=
  match (possibleChars ++ [0])[(number % radix).toNat]? with
  | none => none
  | some c =>
      if h : pos < 32 then
        if number / radix > 0 then
          fillBuffer radix (buffer.set pos c h) (pos + 1) (number / radix)
        else some (buffer.set pos c h, pos + 1)
      else none
termination_by 32 - pos

/-- `printf_number`: what it prints, and the slot it returns. -/
def printfNumberChecked (slots : ℕ → UInt32) (argp : ℕ) (length : Length) (sign : Bool)
    (radix : UInt32) : Option (List UInt8 × ℕ) := do
  let number := takeNumber slots argp length sign
  let (buffer, pos) ← fillBuffer radix (Vector.replicate 32 0) 0 number.1
  if number.2 then
    let buffer ← store buffer pos (byte '-')
    let out ← printBack (fun c => [c]) buffer (pos + 1)
    some (out, argp + stepOver length)
  else
    let out ← printBack (fun c => [c]) buffer pos
    some (out, argp + stepOver length)

/-- `hex_chars`. -/
def hexChars : List UInt8 :=
  ['0', '1', '2', '3', '4', '5', '6', '7', '8', '9', 'A', 'B', 'C', 'D', 'E', 'F'].map byte ++ [0]

/-- The loop of `printHex`, with `left` digits still to come. -/
def fillHex : (left : ℕ) → Vector UInt8 11 → UInt32 → Option (Vector UInt8 11)
  | 0, buf, _ => some buf
  | left + 1, buf, n => do
      let c ← hexChars[(n &&& 0xF).toNat]?
      let buf ← store buf (left + 2) c
      fillHex left buf (n >>> 4)

/-- `printHex`. -/
def printHex (n : UInt32) : Option (List UInt8) := do
  let buf ← fillHex 8 #v[0x30, 0x78, 0x30, 0x30, 0x30, 0x30, 0x30, 0x30, 0x30, 0x30, 0] n
  printArray buf

/-! ## Positional notation -/

/-- The character of a digit. -/
def digitByte (d : ℕ) : UInt8 := byte (Nat.digitChar d)

/-- A number in some radix, without leading zeros. -/
def canonical (radix n : ℕ) : List UInt8 :=
  if n = 0 then [digitByte 0] else (Nat.digits radix n).reverse.map digitByte

/-- A word as a signed decimal number. -/
def signedDecimal (n : UInt32) : List UInt8 :=
  if n.toInt32.toInt < 0 then byte '-' :: canonical 10 n.toInt32.toInt.natAbs
  else canonical 10 n.toInt32.toInt.natAbs

/-- The character of a digit in radix 16, with big letters. -/
def hexByte (d : ℕ) : UInt8 := byte (Nat.digitChar d).toUpper

/-- The eight digits of a word in radix 16. -/
def hexDigits (n : ℕ) : List UInt8 :=
  (List.range 8).map fun k => hexByte (n / 16 ^ (7 - k) % 16)

/-! ## Digits -/

theorem canonical_of_lt {radix n : ℕ} (h : n < radix) : canonical radix n = [digitByte n] := by
  rw [canonical]
  by_cases hn : n = 0
  · rw [if_pos hn, hn]
  · rw [if_neg hn, Nat.digits_of_lt radix n hn h]
    rfl

/-- The last digit comes off the end. -/
theorem canonical_of_le {radix n : ℕ} (hradix : 1 < radix) (h : radix ≤ n) :
    canonical radix n = canonical radix (n / radix) ++ [digitByte (n % radix)] := by
  have hdiv : 0 < n / radix := Nat.div_pos h (by omega)
  rw [canonical, if_neg (by omega), canonical, if_neg (by omega),
    Nat.digits_def' hradix (by omega), List.reverse_cons, List.map_append]
  rfl

/-- The digits are those that the machine's own rendering has. -/
theorem canonical_eq_digits {radix : ℕ} (hradix : 1 < radix) (n : ℕ) :
    canonical radix n = digits radix n := by
  induction n using Nat.strongRecOn with
  | ind n ih =>
      rcases Nat.lt_or_ge n radix with hlt | hge
      · rw [canonical_of_lt hlt, digits, Nat.toDigits_of_lt_base hlt]
        rfl
      · rw [canonical_of_le hradix hge, ih _ (Nat.div_lt_self (by omega) hradix), digits, digits,
          Nat.toDigits_of_base_le hradix hge, List.map_append]
        rfl

theorem digitByte_eq {d : ℕ} (hd : d < 10) : digitByte d = UInt8.ofNat (0x30 + d) := by
  have hall : ∀ d < 10, digitByte d = UInt8.ofNat (0x30 + d) := by decide +kernel
  exact hall d hd

theorem canonical_ten (n : ℕ) : canonical 10 n = decimal n := by
  rw [canonical, decimal]
  refine if_congr Iff.rfl rfl (List.map_congr_left fun d hd => ?_)
  exact digitByte_eq (Nat.digits_lt_base (by decide) (List.mem_reverse.mp hd))

/-! ## Buffers that are printed back -/

section Buffers

variable {k : ℕ} {out : UInt8 → List UInt8}

/-- A store leaves what is in front of it. -/
theorem printBack_set_of_le (buf : Vector UInt8 k) {i : ℕ} (c : UInt8) (hi : i < k) {n : ℕ}
    (hn : n ≤ i) : printBack out (buf.set i c hi) n = printBack out buf n := by
  induction n with
  | zero => rfl
  | succ n ih =>
      rw [printBack, printBack, ih (by omega), Vector.getElem?_set_ne hi (by omega)]

/-- A character stored behind the places that are printed comes first. -/
theorem printBack_set {buf : Vector UInt8 k} {i : ℕ} {l : List UInt8} (c : UInt8) (hi : i < k)
    (h : printBack out buf i = some l) :
    printBack out (buf.set i c hi) (i + 1) = some (out c ++ l) := by
  rw [printBack, Vector.getElem?_set_self hi, printBack_set_of_le buf c hi (Nat.le_refl i), h]
  rfl

end Buffers

/-! ## The loops -/

section Loops

variable (out : UInt8 → List UInt8) (hout : ∀ d < 16, out (digitByte d) = [digitByte d])
include hout

/-- The digits are added in front of what is printed from the buffer. -/
theorem fillTmp_prints {room : ℕ} {tmp : Vector UInt8 12} {i : ℕ} {n : UInt32} {l : List UInt8}
    (hl : printBack out tmp i = some l) (hn : n.toNat < 10 ^ room) (hroom : i + room ≤ 12) :
    ∃ tmp' i', fillTmp tmp i n = some (tmp', i') ∧
      printBack out tmp' i' = some ((Nat.digits 10 n.toNat).reverse.map digitByte ++ l) := by
  induction room generalizing tmp i n l with
  | zero =>
      have hzero : n = 0 := UInt32.toNat_inj.mp (by simpa using hn)
      rw [fillTmp, if_pos hzero, hzero]
      exact ⟨tmp, i, rfl, hl⟩
  | succ room ih =>
      rw [fillTmp]
      by_cases hzero : n = 0
      · rw [if_pos hzero, hzero]
        exact ⟨tmp, i, rfl, hl⟩
      · have hdigit : (0x30 + n % 10).toUInt8 = digitByte (n.toNat % 10) := by
          rw [digitByte_eq (Nat.mod_lt _ (by decide))]
          apply UInt8.toNat_inj.mp
          simp
        have hpos : 0 < n.toNat := by
          rw [Nat.pos_iff_ne_zero]
          exact fun h => hzero (UInt32.toNat_inj.mp h)
        have hset := printBack_set (0x30 + n % 10).toUInt8 (show i < 12 by omega) hl
        rw [hdigit, hout _ (by omega)] at hset
        rw [if_neg hzero, dif_pos (show i < 12 by omega), hdigit]
        have hrest : n.toNat / 10 < 10 ^ room :=
          Nat.div_lt_of_lt_mul (by rwa [← Nat.pow_succ'])
        obtain ⟨tmp', i', hfill, hprint⟩ := ih (n := n / 10) hset
          (by rw [UInt32.toNat_div]; exact hrest) (by omega)
        refine ⟨tmp', i', hfill, ?_⟩
        rw [hprint, UInt32.toNat_div, Nat.digits_def' (by decide) hpos, List.reverse_cons,
          List.map_append, List.append_assoc]
        rfl

/-- The same, with at least one digit, and no more places taken than there is room for. -/
theorem fillBuffer_prints {radix : UInt32} (hlow : 1 < radix.toNat) (hhigh : radix.toNat ≤ 16)
    {room : ℕ} {buffer : Vector UInt8 32} {pos : ℕ} {n : UInt32} {l : List UInt8}
    (hl : printBack out buffer pos = some l) (hn : n.toNat < radix.toNat ^ (room + 1))
    (hroom : pos + room < 32) :
    ∃ buffer' pos', fillBuffer radix buffer pos n = some (buffer', pos') ∧
      pos' ≤ pos + room + 1 ∧
      printBack out buffer' pos' = some (canonical radix.toNat n.toNat ++ l) := by
  have hload (n : UInt32) : (possibleChars ++ [0])[(n % radix).toNat]? =
      some (digitByte (n.toNat % radix.toNat)) := by
    have hall : ∀ d < 16, (possibleChars ++ [0])[d]? = some (digitByte d) := by decide +kernel
    rw [UInt32.toNat_mod]
    exact hall _ (Nat.lt_of_lt_of_le (Nat.mod_lt _ (by omega)) hhigh)
  -- the last digit that is stored
  have hlast {buffer : Vector UInt8 32} {pos : ℕ} {n : UInt32} {l : List UInt8}
      (hl : printBack out buffer pos = some l) (hn : n.toNat < radix.toNat) (hpos : pos < 32) :
      ∃ buffer' pos', fillBuffer radix buffer pos n = some (buffer', pos') ∧ pos' = pos + 1 ∧
        printBack out buffer' pos' = some (canonical radix.toNat n.toNat ++ l) := by
    have hend : ¬ n / radix > 0 := by
      rw [gt_iff_lt, UInt32.lt_iff_toNat_lt, UInt32.toNat_div, Nat.div_eq_of_lt hn]
      exact Nat.lt_irrefl 0
    rw [fillBuffer, hload]
    dsimp only
    rw [dif_pos hpos, if_neg hend]
    refine ⟨_, _, rfl, rfl, ?_⟩
    rw [printBack_set _ hpos hl, hout _ (by rw [Nat.mod_eq_of_lt hn]; omega), canonical_of_lt hn,
      Nat.mod_eq_of_lt hn]
  induction room generalizing buffer pos n l with
  | zero =>
      obtain ⟨buffer', pos', hfill, hpos', hprint⟩ := hlast hl (by simpa using hn) (by omega)
      exact ⟨buffer', pos', hfill, hpos'.le, hprint⟩
  | succ room ih =>
      rcases Nat.lt_or_ge n.toNat radix.toNat with hlt | hge
      · obtain ⟨buffer', pos', hfill, hpos', hprint⟩ := hlast hl hlt (by omega)
        exact ⟨buffer', pos', hfill, by omega, hprint⟩
      · have hmore : n / radix > 0 := by
          rw [gt_iff_lt, UInt32.lt_iff_toNat_lt, UInt32.toNat_div]
          exact Nat.div_pos hge (by omega)
        have hset := printBack_set (digitByte (n.toNat % radix.toNat)) (show pos < 32 by omega) hl
        rw [hout _ (Nat.lt_of_lt_of_le (Nat.mod_lt _ (by omega)) hhigh)] at hset
        have hrest : (n / radix).toNat < radix.toNat ^ (room + 1) := by
          rw [UInt32.toNat_div]
          exact Nat.div_lt_of_lt_mul (by rwa [← Nat.pow_succ'])
        obtain ⟨buffer', pos', hfill, hpos', hprint⟩ := ih hset hrest (by omega)
        rw [fillBuffer, hload]
        dsimp only
        rw [dif_pos (show pos < 32 by omega), if_pos hmore]
        refine ⟨buffer', pos', hfill, by omega, ?_⟩
        rw [hprint, canonical_of_le hlow hge, UInt32.toNat_div, List.append_assoc]

end Loops

/-! ## `printHex` -/

/-- The loop sets the places from 2 on to the lowest digits, the last one to the lowest. -/
theorem fillHex_eq {left : ℕ} (hleft : left ≤ 8) (buf : Vector UInt8 11) (n : UInt32) :
    fillHex left buf n = some (Vector.ofFn fun j : Fin 11 =>
      if 2 ≤ j.val ∧ j.val < left + 2 then hexByte (n.toNat / 16 ^ (left + 1 - j.val) % 16)
      else buf[j]) := by
  induction left generalizing buf n with
  | zero =>
      rw [fillHex]
      refine congrArg some (Vector.ext fun j hj => ?_)
      rw [Vector.getElem_ofFn, if_neg (by omega)]
      rfl
  | succ left ih =>
      have hload : hexChars[(n &&& 0xF).toNat]? = some (hexByte (n.toNat % 16)) := by
        have hall : ∀ d < 16, hexChars[d]? = some (hexByte d) := by decide +kernel
        rw [UInt32.toNat_and, show (0xF : UInt32).toNat = 2 ^ 4 - 1 from rfl,
          Nat.and_two_pow_sub_one_eq_mod]
        exact hall _ (Nat.mod_lt _ (by decide))
      have hstore : store buf (left + 2) (hexByte (n.toNat % 16)) =
          some (buf.set (left + 2) (hexByte (n.toNat % 16))) := dif_pos _
      have hshift : (n >>> 4).toNat = n.toNat / 16 := by
        rw [UInt32.toNat_shiftRight, Nat.shiftRight_eq_div_pow]
        rfl
      rw [fillHex, hload]
      change (store buf (left + 2) _ >>= fun buf => fillHex left buf (n >>> 4)) = _
      rw [hstore]
      change fillHex left _ (n >>> 4) = _
      rw [ih (by omega), hshift]
      refine congrArg some (Vector.ext fun j hj => ?_)
      rw [Vector.getElem_ofFn, Vector.getElem_ofFn]
      dsimp only
      change ite _ _ (buf.set (left + 2) _ _)[j] = ite _ _ buf[j]
      rcases Nat.lt_trichotomy j (left + 2) with hlt | rfl | hgt
      · by_cases h2 : 2 ≤ j
        · rw [if_pos ⟨h2, hlt⟩, if_pos ⟨h2, by omega⟩, Nat.div_div_eq_div_mul, ← Nat.pow_succ',
            Nat.succ_eq_add_one, show left + 1 - j + 1 = left + 1 + 1 - j by omega]
        · rw [if_neg (by omega), if_neg (by omega), Vector.getElem_set_ne _ _ (by omega)]
      · rw [if_neg (by omega), if_pos (by omega), show left + 1 + 1 - (left + 2) = 0 by omega,
          Nat.pow_zero, Nat.div_one, Vector.getElem_set_self]
      · rw [if_neg (by omega), if_neg (by omega), Vector.getElem_set_ne _ _ (by omega)]

/-- No digit is the NUL. -/
theorem hexByte_ne_zero {d : ℕ} (hd : d < 16) : hexByte d ≠ 0 := by
  have hall : ∀ d < 16, hexByte d ≠ 0 := by decide +kernel
  exact hall d hd

theorem printHex_eq (n : UInt32) :
    printHex n = some (byte '0' :: byte 'x' :: hexDigits n.toNat) := by
  rw [printHex, fillHex_eq (Nat.le_refl 8)]
  change printArray (Vector.ofFn _) = _
  have hlist (f : Fin 11 → UInt8) (hf : List.ofFn f =
      (byte '0' :: byte 'x' :: hexDigits n.toNat) ++ [0]) :
      printArray (Vector.ofFn f) = some (byte '0' :: byte 'x' :: hexDigits n.toNat) := by
    have hdigits : ∀ c ∈ byte '0' :: byte 'x' :: hexDigits n.toNat, decide (c ≠ 0) = true := by
      intro c hc
      rw [decide_eq_true_eq]
      simp only [List.mem_cons, hexDigits, List.mem_map] at hc
      rcases hc with rfl | rfl | ⟨k, -, rfl⟩
      · decide
      · decide
      · exact hexByte_ne_zero (Nat.mod_lt _ (by decide))
    rw [printArray, Vector.toList_ofFn, hf, if_pos (by simp),
      List.takeWhile_append_of_pos hdigits]
    rw [List.takeWhile_cons_of_neg (by decide), List.append_nil]
  exact hlist _ rfl

/-! ## The signed number -/

/-- The value of a word in two's complement. -/
theorem toInt_eq (n : UInt32) :
    n.toInt32.toInt = if 2 * n.toNat < 2 ^ 32 then (n.toNat : ℤ) else n.toNat - 2 ^ 32 := by
  change n.toBitVec.toInt = _
  rw [BitVec.toInt_eq_toNat_cond]
  rfl

/-- The negation of the machine gives the absolute value, also of the lowest number. -/
theorem takeNumber_signed (slots : ℕ → UInt32) (argp : ℕ) :
    (takeNumber slots argp .start true).1.toNat = (slots argp).toInt32.toInt.natAbs ∧
      ((takeNumber slots argp .start true).2 = true ↔ (slots argp).toInt32.toInt < 0) := by
  have hlt := (slots argp).toNat_lt
  have hnegative : 0x80000000 ≤ slots argp ↔ 2 ^ 31 ≤ (slots argp).toNat :=
    UInt32.le_iff_toNat_le
  rw [toInt_eq]
  change (ite _ _ _ : UInt32 × Bool).1.toNat = _ ∧ ((ite _ _ _ : UInt32 × Bool).2 = true ↔ _)
  by_cases hneg : 0x80000000 ≤ slots argp
  · have hhigh := hnegative.mp hneg
    rw [if_pos hneg, if_neg (by omega)]
    dsimp only
    rw [UInt32.toNat_neg, UInt32.size]
    constructor
    · omega
    · exact iff_of_true rfl (by omega)
  · have hlow := mt hnegative.mpr hneg
    rw [if_neg hneg, if_pos (by omega)]
    dsimp only
    constructor
    · omega
    · exact iff_of_false (by decide) (by omega)

/-! ## The numbers -/

theorem printUint_eq (tmp : Vector UInt8 12) (n : UInt32) :
    printUint tmp n = some (canonical 10 n.toNat) := by
  rw [printUint, canonical]
  by_cases hn : n = 0
  · rw [if_pos hn, if_pos (by rw [hn]; rfl)]
    rfl
  · have hn' : n.toNat ≠ 0 := fun h => hn (UInt32.toNat_inj.mp h)
    have hout : ∀ d < 16, printChar (digitByte d) = [digitByte d] := by decide +kernel
    have hlt := n.toNat_lt
    obtain ⟨tmp', i', hfill, hprint⟩ := fillTmp_prints printChar hout
      (show printBack _ tmp 0 = some [] from rfl) (show n.toNat < 10 ^ 12 by omega) (by decide)
    rw [if_neg hn, if_neg hn', hfill]
    rw [List.append_nil] at hprint
    exact hprint

/-- The shell's model of `print_uint` prints the same. -/
theorem printUint_eq_decimal (tmp : Vector UInt8 12) (n : UInt32) :
    printUint tmp n = some (decimal n.toNat) := by
  rw [printUint_eq, canonical_ten]

/-- A number in a radix in which it fits the buffer, behind its sign if it has one. -/
theorem printfNumberChecked_eq (slots : ℕ → UInt32) (argp : ℕ) (length : Length) (sign : Bool)
    {radix : UInt32} (hlow : 8 ≤ radix.toNat) (hhigh : radix.toNat ≤ 16) :
    printfNumberChecked slots argp length sign radix =
      some ((if (takeNumber slots argp length sign).2 then [byte '-'] else []) ++
        canonical radix.toNat (takeNumber slots argp length sign).1.toNat,
        argp + stepOver length) := by
  have hsize : (takeNumber slots argp length sign).1.toNat < radix.toNat ^ (10 + 1) :=
    calc (takeNumber slots argp length sign).1.toNat < 2 ^ 32 := UInt32.toNat_lt _
      _ ≤ 8 ^ (10 + 1) := by decide
      _ ≤ radix.toNat ^ (10 + 1) := Nat.pow_le_pow_left hlow _
  obtain ⟨buffer, pos, hfill, hpos, hprint⟩ := fillBuffer_prints (fun c => [c])
    (fun d _ => rfl) (by omega) hhigh
    (show printBack _ (Vector.replicate 32 0) 0 = some [] from rfl) hsize (by decide)
  rw [List.append_nil] at hprint
  rw [printfNumberChecked]
  dsimp only
  rw [hfill]
  cases hsign : (takeNumber slots argp length sign).2 with
  | false =>
      change (printBack (fun c => [c]) buffer pos >>= fun out =>
        some (out, argp + stepOver length)) = _
      rw [hprint]
      rfl
  | true =>
      have hstore : store buffer pos (byte '-') = some (buffer.set pos (byte '-')) := dif_pos _
      change (store buffer pos (byte '-') >>= fun buffer =>
        printBack (fun c => [c]) buffer (pos + 1) >>= fun out =>
          some (out, argp + stepOver length)) = _
      rw [hstore]
      change (printBack (fun c => [c]) (buffer.set pos (byte '-')) (pos + 1) >>= fun out =>
        some (out, argp + stepOver length)) = _
      rw [printBack_set _ _ hprint]
      rfl

/-- The buffer is never left in the three radices, and the number is that of the unchecked
code. -/
theorem printfNumberChecked_eq_printfNumber (slots : ℕ → UInt32) (argp : ℕ) (length : Length)
    (n : Number) : printfNumberChecked slots argp length n.sign (UInt32.ofNat n.radix) =
      some (printfNumber slots argp length n.sign n.radix) := by
  have hradix : (UInt32.ofNat n.radix).toNat = n.radix ∧ 8 ≤ n.radix := by cases n <;> decide
  obtain ⟨hlow, hhigh⟩ := n.radix_bounds
  rw [printfNumberChecked_eq _ _ _ _ (hradix.1.symm ▸ hradix.2) (hradix.1.symm ▸ hhigh), hradix.1,
    canonical_eq_digits hlow, printfNumber, List.reverse_append, reverse_fillDigits_word]
  cases (takeNumber slots argp length n.sign).2 <;> rfl

/-- **Numbers are printed in positional notation.** For every word, whatever is on the stack and
in `tmp`, no index is outside of a buffer, and what is output has no leading zeros, but for the
eight digits of `printHex`. -/
theorem numbersCanonical (slots : ℕ → UInt32) (argp : ℕ) :
    (∀ tmp, printUint tmp (slots argp) = some (canonical 10 (slots argp).toNat)) ∧
    (∀ radix ∈ [8, 10, 16], printfNumberChecked slots argp .start false radix =
      some (canonical radix.toNat (slots argp).toNat, argp + 1)) ∧
    printfNumberChecked slots argp .start true 10 =
      some (signedDecimal (slots argp), argp + 1) ∧
    printHex (slots argp) = some (byte '0' :: byte 'x' :: hexDigits (slots argp).toNat) := by
  refine ⟨fun tmp => printUint_eq tmp _, fun radix hradix => ?_, ?_, printHex_eq _⟩
  · have hbounds : 8 ≤ radix.toNat ∧ radix.toNat ≤ 16 := by
      simp only [List.mem_cons, List.not_mem_nil, or_false] at hradix
      rcases hradix with rfl | rfl | rfl <;> decide
    exact printfNumberChecked_eq slots argp .start false hbounds.1 hbounds.2
  · obtain ⟨habs, hsign⟩ := takeNumber_signed slots argp
    rw [printfNumberChecked_eq slots argp .start true (by decide) (by decide), habs,
      signedDecimal]
    by_cases hneg : (slots argp).toInt32.toInt < 0
    · rw [if_pos (hsign.mpr hneg), if_pos hneg]
      rfl
    · rw [if_neg (mt hsign.mp hneg), if_neg hneg]
      rfl

end MasterOS.Console
