/-
# Formatted output

`printf` and `printf_number` on the stack of the i386: `argp` counts slots of four bytes
behind the format, and `putc` is taken to output its character. The scanner goes over the
format once and hands every conversion to the slot that `argp` has come to.

The lengths that `printf_number` steps over are twice those of the arguments: two slots for
`l` and four for `ll`, and of a `long long` only the lower half is printed. A format is
rendered right for all of its arguments exactly when no conversion is a number with `ll`, and
none that steps too far has another conversion behind it.
-/

import Mathlib.Algebra.Group.Nat.Defs
import Mathlib.Algebra.Ring.Int.Defs
import Mathlib.Data.List.Basic

namespace MasterOS.Stdlib

/-! ## The code -/

/-- The values of `state`. -/
inductive State
  | start
  | length
  | short
  | long
  | spec
  deriving DecidableEq

/-- The values of `length`. -/
inductive Length
  | start
  | shortShort
  | short
  | long
  | longLong
  deriving DecidableEq

/-- The variables of `printf` that live from one character to the next, and the output. The
variables `radix` and `sign` are set before each use. -/
structure Scan where
  state : State
  length : Length
  argp : ℕ
  out : List UInt8

/-- A character as a byte. -/
def byte (c : Char) : UInt8 := UInt8.ofNat c.toNat

/-- `possibleChars`. -/
def possibleChars : List UInt8 :=
  ['0', '1', '2', '3', '4', '5', '6', '7', '8', '9', 'a', 'b', 'c', 'd', 'e', 'f'].map byte

/-- The loop that fills `buffer` with the digits of a number, the lowest first, with `room`
places left. -/
def fillDigits (radix : ℕ) : (room number : ℕ) → List UInt8
  | 0, _ => []
  | room + 1, number =>
      possibleChars.getD (number % radix) 0 ::
        if number / radix > 0 then fillDigits radix room (number / radix) else []

section Code

variable (slots : ℕ → UInt32) (strings : UInt32 → List UInt8)

/-- The `long long` at a slot, the lower half first. -/
def longLongAt (argp : ℕ) : UInt64 := (slots (argp + 1)).toUInt64 <<< 32 ||| (slots argp).toUInt64

/-- The number that `printf_number` prints, and whether it puts a sign before it. The
negation is that of the machine. -/
def takeNumber (argp : ℕ) (length : Length) (sign : Bool) : UInt32 × Bool :=
  match length, sign with
  | _, false => (slots argp, false)
  | .longLong, true =>
      if 0x8000000000000000 ≤ longLongAt slots argp then ((-longLongAt slots argp).toUInt32, true)
      else ((longLongAt slots argp).toUInt32, false)
  | _, true => if 0x80000000 ≤ slots argp then (-slots argp, true) else (slots argp, false)

/-- The slots that `printf_number` steps over. -/
def stepOver : Length → ℕ
  | .shortShort | .short | .start => 1
  | .long => 2
  | .longLong => 4

/-- `printf_number`: what it prints, and the slot it returns. -/
def printfNumber (argp : ℕ) (length : Length) (sign : Bool) (radix : ℕ) : List UInt8 × ℕ :=
  let number := takeNumber slots argp length sign
  let buffer := fillDigits radix 32 number.1.toNat ++ if number.2 then [byte '-'] else []
  (buffer.reverse, argp + stepOver length)

/-- The part of `printf` behind the label `PRINTF_STATE_SPEC_`. -/
def Scan.spec (s : Scan) (c : UInt8) : Scan :=
  let number (sign : Bool) (radix : ℕ) : Scan :=
    let printed := printfNumber slots s.argp s.length sign radix
    ⟨.start, .start, printed.2, s.out ++ printed.1⟩
  if c = byte 'c' then ⟨.start, .start, s.argp + 1, s.out ++ [(slots s.argp).toUInt8]⟩
  else if c = byte 's' then
    if s.length = .long ∨ s.length = .longLong then
      ⟨.start, .start, s.argp + 2, s.out ++ strings (slots s.argp)⟩
    else ⟨.start, .start, s.argp + 1, s.out ++ strings (slots s.argp)⟩
  else if c = byte '%' then ⟨.start, .start, s.argp, s.out ++ [byte '%']⟩
  else if c = byte 'd' ∨ c = byte 'i' then number true 10
  else if c = byte 'u' then number false 10
  else if c = byte 'X' ∨ c = byte 'x' ∨ c = byte 'p' then number false 16
  else if c = byte 'o' then number false 8
  else ⟨.start, .start, s.argp, s.out⟩

/-- One character of the format. -/
def Scan.step (s : Scan) (c : UInt8) : Scan :=
  match s.state with
  | .start => if c = byte '%' then { s with state := .length } else { s with out := s.out ++ [c] }
  | .length =>
      if c = byte 'h' then { s with length := .short, state := .short }
      else if c = byte 'l' then { s with length := .long, state := .long }
      else s.spec slots strings c
  | .short =>
      if c = byte 'h' then { s with length := .shortShort, state := .spec }
      else s.spec slots strings c
  | .long =>
      if c = byte 'l' then { s with length := .longLong, state := .spec }
      else s.spec slots strings c
  | .spec => s.spec slots strings c

/-- `printf`: what it outputs for a format, given by its characters before the NUL. -/
def printf (fmt : List UInt8) : List UInt8 :=
  (fmt.foldl (Scan.step slots strings) ⟨.start, .start, 0, []⟩).out

end Code

/-! ## What a format means -/

/-- The conversions of a number. -/
inductive Number
  | d
  | i
  | u
  | upperX
  | x
  | p
  | o
  deriving DecidableEq

/-- The conversions. -/
inductive Kind
  | c
  | s
  | number (n : Number)
  deriving DecidableEq

/-- The character of a conversion. -/
def Kind.char : Kind → UInt8
  | .c => byte 'c'
  | .s => byte 's'
  | .number .d => byte 'd'
  | .number .i => byte 'i'
  | .number .u => byte 'u'
  | .number .upperX => byte 'X'
  | .number .x => byte 'x'
  | .number .p => byte 'p'
  | .number .o => byte 'o'

/-- The radix of a conversion. -/
def Number.radix : Number → ℕ
  | .d | .i | .u => 10
  | .upperX | .x | .p => 16
  | .o => 8

/-- The conversion is of a signed number. -/
def Number.sign : Number → Bool
  | .d | .i => true
  | _ => false

/-- The characters of a length. -/
def Length.chars : Length → List UInt8
  | .start => []
  | .shortShort => [byte 'h', byte 'h']
  | .short => [byte 'h']
  | .long => [byte 'l']
  | .longLong => [byte 'l', byte 'l']

/-- The bits of a number of some length. -/
def Length.bits : Length → ℕ
  | .start | .long => 32
  | .shortShort => 8
  | .short => 16
  | .longLong => 64

/-- The parts of a format. -/
inductive Item
  | text (c : { c : UInt8 // c ≠ 0 ∧ c ≠ byte '%' })
  | percent
  | conv (length : Length) (kind : Kind)

/-- The characters of a part. -/
def Item.chars : Item → List UInt8
  | .text c => [c.1]
  | .percent => [byte '%', byte '%']
  | .conv length kind => byte '%' :: (length.chars ++ [kind.char])

/-- The format of some parts. -/
def formatOf (items : List Item) : List UInt8 := items.flatMap Item.chars

/-- The arguments. A string is given by its address. -/
inductive Arg
  | char (c : UInt8)
  | string (s : UInt32)
  | number (n : ℤ)

/-- The number is a `long long`: it takes two slots. A pointer takes one whatever its prefix. -/
def Wide (n : Number) (length : Length) : Prop := n ≠ .p ∧ length = .longLong

instance (n : Number) (length : Length) : Decidable (Wide n length) :=
  inferInstanceAs (Decidable (_ ∧ _))

/-- The bits of a number argument. -/
def numberBits (n : Number) (length : Length) : ℕ := if n = .p then 32 else length.bits

/-- An argument is one for a conversion. -/
def Matches (length : Length) : Kind → Arg → Prop
  | .c, .char _ => True
  | .s, .string _ => True
  | .number n, .number v =>
      if n.sign then -2 ^ (numberBits n length - 1) ≤ v ∧ v < 2 ^ (numberBits n length - 1)
      else 0 ≤ v ∧ v < 2 ^ numberBits n length
  | _, _ => False

/-- The lower half of a number, or all of it. -/
def lowWord (v : ℤ) : UInt32 := UInt32.ofNat (v % 4294967296).toNat

/-- The slots of an argument. A `char` is passed as an `int`. -/
def argSlots (length : Length) : Kind → Arg → List UInt32
  | _, .char c => [if c < 0x80 then c.toUInt32 else c.toUInt32 ||| 0xFFFFFF00]
  | _, .string s => [s]
  | .number n, .number v =>
      if Wide n length then [lowWord v, lowWord (v / 4294967296)] else [lowWord v]
  | _, .number v => [lowWord v]

/-- The digits of a number. Letters are small for every conversion, as in `possibleChars`. -/
def digits (radix n : ℕ) : List UInt8 := (Nat.toDigits radix n).map byte

/-- What an argument should look like. -/
def render (strings : UInt32 → List UInt8) : Kind → Arg → List UInt8
  | _, .char c => [c]
  | _, .string s => strings s
  | .number n, .number v =>
      if v < 0 then byte '-' :: digits n.radix (-v).toNat else digits n.radix v.toNat
  | _, .number _ => []

/-- What a format should output for its arguments. -/
def expected (strings : UInt32 → List UInt8) : List Item → List Arg → List UInt8
  | [], _ => []
  | .text c :: items, args => c.1 :: expected strings items args
  | .percent :: items, args => byte '%' :: expected strings items args
  | .conv _ kind :: items, arg :: args => render strings kind arg ++ expected strings items args
  | .conv _ _ :: _, [] => []

/-- The arguments are those of a format, in order. -/
def ArgsFor : List Item → List Arg → Prop
  | [], args => args = []
  | .text _ :: items, args => ArgsFor items args
  | .percent :: items, args => ArgsFor items args
  | .conv length kind :: items, arg :: args => Matches length kind arg ∧ ArgsFor items args
  | .conv _ _ :: _, [] => False

/-- The slots of all arguments of a format. -/
def stackOf : List Item → List Arg → List UInt32
  | [], _ => []
  | .text _ :: items, args => stackOf items args
  | .percent :: items, args => stackOf items args
  | .conv length kind :: items, arg :: args => argSlots length kind arg ++ stackOf items args
  | .conv _ _ :: _, [] => []

/-- From slot `k` on the stack holds these words. -/
def StackedAt (slots : ℕ → UInt32) (k : ℕ) (words : List UInt32) : Prop :=
  ∀ j word, words[j]? = some word → slots (k + j) = word

/-- Whatever its arguments, and whatever lies behind them on the stack, the format is rendered
right. -/
def RendersAll (items : List Item) : Prop :=
  ∀ args, ArgsFor items args → ∀ slots strings, StackedAt slots 0 (stackOf items args) →
    printf slots strings (formatOf items) = expected strings items args

/-! ## The formats that are rendered right -/

/-- The slots that `printf` steps over for a conversion. -/
def advance (length : Length) : Kind → ℕ
  | .c => 1
  | .s => if length = .long ∨ length = .longLong then 2 else 1
  | .number _ => stepOver length

/-- The slots of a conversion's argument. -/
def width (length : Length) : Kind → ℕ
  | .number n => if Wide n length then 2 else 1
  | _ => 1

/-- A conversion that prints the lower half of its argument only. -/
def Truncates (length : Length) : Kind → Prop
  | .number n => Wide n length
  | _ => False

/-- A conversion with `l` or `ll` that is not of a character. -/
def StepsTooFar (length : Length) (kind : Kind) : Prop :=
  kind ≠ .c ∧ (length = .long ∨ length = .longLong)

instance (length : Length) (kind : Kind) : Decidable (StepsTooFar length kind) :=
  inferInstanceAs (Decidable (_ ∧ _))

/-- No conversion is left. -/
def NoConv (items : List Item) : Prop := ∀ length kind, .conv length kind ∉ items

/-- No conversion is a number with `ll`, and none that steps too far has another behind it. -/
def Renderable : List Item → Prop
  | [] => True
  | .text _ :: items => Renderable items
  | .percent :: items => Renderable items
  | .conv length kind :: items => ¬ Truncates length kind ∧
      (StepsTooFar length kind → NoConv items) ∧ Renderable items

/-! ## What `printf` prints -/

section Output

variable (slots : ℕ → UInt32) (strings : UInt32 → List UInt8)

/-- What `printf` prints for a conversion whose slot is `argp`. -/
def convOut (argp : ℕ) (length : Length) : Kind → List UInt8
  | .c => [(slots argp).toUInt8]
  | .s => strings (slots argp)
  | .number n => (printfNumber slots argp length n.sign n.radix).1

/-- What `printf` prints for the parts of a format from slot `argp` on. -/
def output : List Item → (argp : ℕ) → List UInt8
  | [], _ => []
  | .text c :: items, argp => c.1 :: output items argp
  | .percent :: items, argp => byte '%' :: output items argp
  | .conv length kind :: items, argp =>
      convOut slots strings argp length kind ++ output items (argp + advance length kind)

/-- The scanner goes through a conversion. -/
theorem foldl_conv (length : Length) (kind : Kind) (argp : ℕ) (out : List UInt8) :
    (Item.conv length kind).chars.foldl (Scan.step slots strings) ⟨.start, .start, argp, out⟩ =
      ⟨.start, .start, argp + advance length kind,
        out ++ convOut slots strings argp length kind⟩ := by
  cases kind with
  | c => cases length <;> rfl
  | s => cases length <;> rfl
  | number n => cases n <;> cases length <;> rfl

theorem foldl_formatOf (items : List Item) (argp : ℕ) (out : List UInt8) :
    ((formatOf items).foldl (Scan.step slots strings) ⟨.start, .start, argp, out⟩).out =
      out ++ output slots strings items argp := by
  induction items generalizing argp out with
  | nil => exact (List.append_nil out).symm
  | cons item items ih =>
      rw [formatOf, List.flatMap_cons, List.foldl_append]
      change ((formatOf items).foldl (Scan.step slots strings) _).out = _
      cases item with
      | text c =>
          have htext : (Item.text c).chars.foldl (Scan.step slots strings)
              ⟨.start, .start, argp, out⟩ = ⟨.start, .start, argp, out ++ [c.1]⟩ := if_neg c.2.2
          rw [htext, ih, output, List.append_assoc, List.singleton_append]
      | percent =>
          have hpercent : Item.percent.chars.foldl (Scan.step slots strings)
              ⟨.start, .start, argp, out⟩ = ⟨.start, .start, argp, out ++ [byte '%']⟩ := rfl
          rw [hpercent, ih, output, List.append_assoc, List.singleton_append]
      | conv length kind => rw [foldl_conv, ih, output, List.append_assoc]

/-- **The run of the scanner.** -/
theorem printf_formatOf (items : List Item) :
    printf slots strings (formatOf items) = output slots strings items 0 := by
  rw [printf, foldl_formatOf, List.nil_append]

end Output

/-! ## One conversion -/

theorem getD_possibleChars {d : ℕ} (hd : d < 16) :
    possibleChars.getD d 0 = byte (Nat.digitChar d) := by
  have hall : ∀ d < 16, possibleChars.getD d 0 = byte (Nat.digitChar d) := by decide +kernel
  exact hall d hd

/-- The digits of a number for which `buffer` has room. -/
theorem reverse_fillDigits {radix : ℕ} (hlow : 1 < radix) (hhigh : radix ≤ 16) {room n : ℕ}
    (hroom : n < radix ^ room) (hpos : 0 < room) :
    (fillDigits radix room n).reverse = digits radix n := by
  induction room generalizing n with
  | zero => cases hpos
  | succ room ih =>
      have hdigit : n % radix < 16 := Nat.lt_of_lt_of_le (Nat.mod_lt n (by omega)) hhigh
      rw [fillDigits, getD_possibleChars hdigit, digits]
      by_cases hmore : n / radix > 0
      · have hge : radix ≤ n := (Nat.div_pos_iff.mp hmore).2
        have hrest : n / radix < radix ^ room := Nat.div_lt_of_lt_mul (by rwa [← Nat.pow_succ'])
        have hroom' : 0 < room := by
          rcases Nat.eq_zero_or_pos room with rfl | hpos
          · rw [Nat.pow_zero] at hrest
            omega
          · exact hpos
        rw [if_pos hmore, List.reverse_cons, ih hrest hroom', Nat.toDigits_of_base_le hlow hge,
          List.map_append]
        rfl
      · have hlt : n < radix := by
          rcases Nat.lt_or_ge n radix with hlt | hge
          · exact hlt
          · exact absurd (Nat.div_pos hge (by omega)) hmore
        rw [if_neg hmore, Nat.toDigits_of_lt_base hlt, Nat.mod_eq_of_lt hlt]
        rfl

theorem Number.radix_bounds (n : Number) : 1 < n.radix ∧ n.radix ≤ 16 := by
  cases n <;> decide

/-- A number of 32 bits fits into `buffer`. -/
theorem reverse_fillDigits_word (n : Number) (v : UInt32) :
    (fillDigits n.radix 32 v.toNat).reverse = digits n.radix v.toNat := by
  obtain ⟨hlow, hhigh⟩ := n.radix_bounds
  refine reverse_fillDigits hlow hhigh ?_ (by decide)
  calc v.toNat < 2 ^ 32 := v.toNat_lt
    _ ≤ n.radix ^ 32 := Nat.pow_le_pow_left hlow 32

theorem lowWord_toNat (v : ℤ) : (lowWord v).toNat = (v % 4294967296).toNat := by
  rw [lowWord, UInt32.toNat_ofNat']
  apply Nat.mod_eq_of_lt
  omega

theorem numberBits_cases {n : Number} {length : Length} (h : ¬ Wide n length) :
    numberBits n length = 8 ∨ numberBits n length = 16 ∨ numberBits n length = 32 := by
  unfold numberBits
  by_cases hp : n = .p
  · rw [if_pos hp]
    exact Or.inr (Or.inr rfl)
  · have hlength : length ≠ .longLong := fun hlong => h ⟨hp, hlong⟩
    rw [if_neg hp]
    cases length with
    | longLong => exact absurd rfl hlength
    | shortShort => exact Or.inl rfl
    | short => exact Or.inr (Or.inl rfl)
    | start => exact Or.inr (Or.inr rfl)
    | long => exact Or.inr (Or.inr rfl)

/-- A number of one slot is in range. -/
theorem Matches.narrow {n : Number} {length : Length} {v : ℤ} (h : ¬ Wide n length)
    (hmatch : Matches length (.number n) (.number v)) :
    (n.sign = true → -2147483648 ≤ v ∧ v < 2147483648) ∧
      (n.sign = false → 0 ≤ v ∧ v < 4294967296) := by
  rw [Matches] at hmatch
  constructor
  · intro hsign
    rw [if_pos hsign] at hmatch
    rcases numberBits_cases h with hbits | hbits | hbits <;> rw [hbits] at hmatch <;> omega
  · intro hsign
    rw [if_neg (by rw [hsign]; decide)] at hmatch
    rcases numberBits_cases h with hbits | hbits | hbits <;> rw [hbits] at hmatch <;> omega

/-- A signed number of one slot is read as it is. -/
theorem takeNumber_signed {slots : ℕ → UInt32} {argp : ℕ} {length : Length} {v : ℤ}
    (hlength : length ≠ .longLong) (hslot : slots argp = lowWord v) (hlow : -2147483648 ≤ v)
    (hhigh : v < 2147483648) :
    takeNumber slots argp length true =
      if v < 0 then (-lowWord v, true) else (lowWord v, false) := by
  have htake : takeNumber slots argp length true =
      if 0x80000000 ≤ slots argp then (-slots argp, true) else (slots argp, false) := by
    cases length with
    | longLong => exact absurd rfl hlength
    | _ => rfl
  have hsign : 0x80000000 ≤ lowWord v ↔ v < 0 := by
    rw [UInt32.le_iff_toNat_le, lowWord_toNat, show (0x80000000 : UInt32).toNat = 2147483648 from rfl]
    omega
  rw [htake, hslot]
  by_cases hneg : v < 0
  · rw [if_pos hneg, if_pos (hsign.mpr hneg)]
  · rw [if_neg hneg, if_neg (mt hsign.mp hneg)]

/-- A conversion of an argument that is all in its slot prints what it should. -/
theorem convOut_of_matches {slots : ℕ → UInt32} (strings : UInt32 → List UInt8) {argp : ℕ}
    {length : Length} {kind : Kind} {arg : Arg} (hmatch : Matches length kind arg)
    (hfull : ¬ Truncates length kind) (hstack : StackedAt slots argp (argSlots length kind arg)) :
    convOut slots strings argp length kind = render strings kind arg := by
  cases kind with
  | c =>
      cases arg with
      | char c =>
          have hslot := hstack 0 _ rfl
          rw [Nat.add_zero] at hslot
          rw [convOut, hslot, render]
          by_cases hlow : c < 0x80
          · rw [if_pos hlow, UInt8.toUInt8_toUInt32]
          · rw [if_neg hlow, UInt32.toUInt8_or, UInt8.toUInt8_toUInt32,
              show (0xFFFFFF00 : UInt32).toUInt8 = 0 from rfl, UInt8.or_zero]
      | string s => cases hmatch
      | number v => cases hmatch
  | s =>
      cases arg with
      | char c => cases hmatch
      | string p =>
          have hslot := hstack 0 _ rfl
          rw [Nat.add_zero] at hslot
          rw [convOut, hslot, render]
      | number v => cases hmatch
  | number n =>
      cases arg with
      | char c => cases hmatch
      | string p => cases hmatch
      | number v =>
          have hnarrow : ¬ Wide n length := hfull
          have hslot : slots argp = lowWord v := by
            rw [argSlots, if_neg hnarrow] at hstack
            exact hstack 0 _ rfl
          obtain ⟨hsigned, hunsigned⟩ := hmatch.narrow hnarrow
          rw [convOut, printfNumber, render]
          dsimp only
          cases hsign : n.sign with
          | true =>
              obtain ⟨hlow, hhigh⟩ := hsigned hsign
              have hlength : length ≠ .longLong := fun hlong => by
                refine hnarrow ⟨?_, hlong⟩
                rintro rfl
                cases hsign
              rw [takeNumber_signed hlength hslot hlow hhigh]
              by_cases hneg : v < 0
              · have hvalue : (-lowWord v).toNat = (-v).toNat := by
                  rw [UInt32.toNat_neg, lowWord_toNat, show UInt32.size = 4294967296 from rfl]
                  omega
                rw [if_pos hneg, if_pos hneg]
                dsimp only
                rw [if_pos rfl, List.reverse_append, reverse_fillDigits_word, hvalue]
                rfl
              · have hvalue : (lowWord v).toNat = v.toNat := by
                  rw [lowWord_toNat]
                  omega
                rw [if_neg hneg, if_neg hneg]
                dsimp only
                rw [if_neg Bool.false_ne_true, List.append_nil, reverse_fillDigits_word, hvalue]
          | false =>
              obtain ⟨hlow, hhigh⟩ := hunsigned hsign
              have hvalue : (lowWord v).toNat = v.toNat := by
                rw [lowWord_toNat]
                omega
              have htake : takeNumber slots argp length false = (slots argp, false) := by
                cases length <;> rfl
              rw [htake, hslot, if_neg (Int.not_lt.mpr hlow)]
              dsimp only
              rw [if_neg Bool.false_ne_true, List.append_nil, reverse_fillDigits_word, hvalue]

/-! ## All conversions -/

/-- Without a conversion the arguments do not matter. -/
theorem output_of_noConv {slots : ℕ → UInt32} {strings : UInt32 → List UInt8} {items : List Item}
    (h : NoConv items) (argp : ℕ) (args : List Arg) :
    output slots strings items argp = expected strings items args := by
  induction items with
  | nil => rfl
  | cons item items ih =>
      have hrest := ih fun length kind hmem => h length kind (List.mem_cons_of_mem item hmem)
      cases item with
      | text c => rw [output, expected, hrest]
      | percent => rw [output, expected, hrest]
      | conv length kind => exact absurd List.mem_cons_self (h length kind)

/-- An argument takes the slots of its conversion. -/
theorem length_argSlots {length : Length} {kind : Kind} {arg : Arg}
    (hmatch : Matches length kind arg) : (argSlots length kind arg).length = width length kind := by
  cases kind with
  | c => cases arg <;> rfl
  | s => cases arg <;> rfl
  | number n =>
      cases arg with
      | char c => cases hmatch
      | string p => cases hmatch
      | number v =>
          rw [argSlots, width]
          by_cases hwide : Wide n length
          · rw [if_pos hwide, if_pos hwide]
            rfl
          · rw [if_neg hwide, if_neg hwide]
            rfl

theorem width_pos (length : Length) (kind : Kind) : 0 < width length kind := by
  cases kind with
  | number n =>
      rw [width]
      by_cases hwide : Wide n length
      · rw [if_pos hwide]
        decide
      · rw [if_neg hwide]
        decide
  | _ => exact Nat.one_pos

theorem width_of_narrow {length : Length} {kind : Kind} (h : ¬ Truncates length kind) :
    width length kind = 1 := by
  cases kind with
  | number n => exact if_neg h
  | _ => rfl

/-- The conversions that step over more than their argument. -/
theorem advance_eq_width_iff {length : Length} {kind : Kind} (h : ¬ Truncates length kind) :
    advance length kind = width length kind ↔ ¬ StepsTooFar length kind := by
  rw [width_of_narrow h]
  cases kind with
  | number n => cases length <;> simp [advance, stepOver, StepsTooFar]
  | _ => cases length <;> decide

theorem advance_pos (length : Length) (kind : Kind) : 0 < advance length kind := by
  cases kind with
  | number n => cases length <;> exact Nat.succ_pos _
  | _ => cases length <;> decide

/-- The two parts of a stack. -/
theorem StackedAt.of_append {slots : ℕ → UInt32} {k : ℕ} {first rest : List UInt32}
    (h : StackedAt slots k (first ++ rest)) :
    StackedAt slots k first ∧ StackedAt slots (k + first.length) rest := by
  constructor
  · intro j word hj
    obtain ⟨hlt, -⟩ := List.getElem?_eq_some_iff.mp hj
    exact h j word (by rw [List.getElem?_append_left hlt, hj])
  · intro j word hj
    rw [Nat.add_assoc]
    refine h _ word ?_
    rw [List.getElem?_append_right (by omega), Nat.add_sub_cancel_left, hj]

/-- A renderable format prints what it should. -/
theorem output_of_renderable {slots : ℕ → UInt32} (strings : UInt32 → List UInt8)
    {items : List Item} (hitems : Renderable items) {args : List Arg} (hargs : ArgsFor items args)
    {k : ℕ} (hstack : StackedAt slots k (stackOf items args)) :
    output slots strings items k = expected strings items args := by
  induction items generalizing args k with
  | nil => rfl
  | cons item items ih =>
      cases item with
      | text c => rw [output, expected, ih hitems hargs hstack]
      | percent => rw [output, expected, ih hitems hargs hstack]
      | conv length kind =>
          obtain ⟨hfull, hlast, hrest⟩ := hitems
          cases args with
          | nil => cases hargs
          | cons arg args =>
              obtain ⟨hmatch, hargs⟩ := hargs
              obtain ⟨hfirst, hothers⟩ := StackedAt.of_append hstack
              rw [output, expected, convOut_of_matches strings hmatch hfull hfirst]
              by_cases hfar : StepsTooFar length kind
              · rw [output_of_noConv (hlast hfar) _ args]
              · rw [length_argSlots hmatch, ← (advance_eq_width_iff hfull).mpr hfar] at hothers
                rw [ih hrest hargs hothers]

/-! ## A format that is not renderable -/

/-- An argument of zeros. -/
def zeroArg : Kind → Arg
  | .c => .char 0
  | .s => .string 0
  | .number _ => .number 0

/-- An argument that looks different. -/
def oneArg : Kind → Arg
  | .c => .char 1
  | .s => .string 1
  | .number _ => .number 1

/-- Arguments of zeros for a format. -/
def zeroArgs : List Item → List Arg
  | [] => []
  | .text _ :: items => zeroArgs items
  | .percent :: items => zeroArgs items
  | .conv _ kind :: items => zeroArg kind :: zeroArgs items

theorem matches_number {v : ℤ} (hlow : 0 ≤ v) (hhigh : v < 2) (length : Length) (n : Number) :
    Matches length (.number n) (.number v) := by
  have hbits : numberBits n length = 8 ∨ numberBits n length = 16 ∨ numberBits n length = 32 ∨
      numberBits n length = 64 := by
    cases n <;> cases length <;> decide
  rw [Matches]
  by_cases hsign : n.sign = true
  · rw [if_pos hsign]
    rcases hbits with hbits | hbits | hbits | hbits <;> rw [hbits] <;> omega
  · rw [if_neg hsign]
    rcases hbits with hbits | hbits | hbits | hbits <;> rw [hbits] <;> omega

theorem matches_small (length : Length) (kind : Kind) :
    Matches length kind (zeroArg kind) ∧ Matches length kind (oneArg kind) := by
  cases kind with
  | c => exact ⟨trivial, trivial⟩
  | s => exact ⟨trivial, trivial⟩
  | number n =>
      exact ⟨matches_number (by decide) (by decide) length n,
        matches_number (by decide) (by decide) length n⟩

theorem argsFor_zeroArgs (items : List Item) : ArgsFor items (zeroArgs items) := by
  induction items with
  | nil => rfl
  | cons item items ih =>
      cases item with
      | text c => exact ih
      | percent => exact ih
      | conv length kind => exact ⟨(matches_small length kind).1, ih⟩

theorem argSlots_zeroArg (length : Length) (kind : Kind) :
    ∀ word ∈ argSlots length kind (zeroArg kind), word = 0 := by
  have hzero : lowWord 0 = 0 := rfl
  cases kind with
  | c => exact List.forall_mem_singleton.mpr rfl
  | s => exact List.forall_mem_singleton.mpr rfl
  | number n =>
      rw [zeroArg, argSlots]
      by_cases hwide : Wide n length
      · rw [if_pos hwide]
        exact List.forall_mem_cons.mpr ⟨hzero, List.forall_mem_singleton.mpr hzero⟩
      · rw [if_neg hwide]
        exact List.forall_mem_singleton.mpr hzero

theorem argSlots_narrow {length : Length} {kind : Kind} (h : ¬ Truncates length kind) :
    argSlots length kind (zeroArg kind) = [0] := by
  obtain ⟨word, hword⟩ := List.length_eq_one_iff.mp
    ((length_argSlots (matches_small length kind).1).trans (width_of_narrow h))
  rw [hword, argSlots_zeroArg length kind word (hword ▸ List.mem_singleton_self word)]

theorem stackOf_zeroArgs (items : List Item) : ∀ word ∈ stackOf items (zeroArgs items), word = 0 := by
  induction items with
  | nil => exact nofun
  | cons item items ih =>
      cases item with
      | text c => exact ih
      | percent => exact ih
      | conv length kind =>
          intro word hword
          rcases List.mem_append.mp hword with hfirst | hrest
          · exact argSlots_zeroArg length kind word hfirst
          · exact ih word hrest

/-- A stack of given words with zeros behind them. -/
def stackWith (words : List UInt32) (j : ℕ) : UInt32 := words[j]?.getD 0

theorem stackedAt_stackWith (words : List UInt32) : StackedAt (stackWith words) 0 words := by
  intro j word hj
  rw [Nat.zero_add, stackWith, hj, Option.getD_some]

theorem stackWith_eq_zero {words : List UInt32} {j : ℕ}
    (h : ∀ word, words[j]? = some word → word = 0) : stackWith words j = 0 := by
  rw [stackWith]
  cases hj : words[j]? with
  | none => rfl
  | some word => exact h word hj

/-- Of a number whose lower half is zero, and whose upper half is small, zero is printed. -/
theorem takeNumber_zero {slots : ℕ → UInt32} {argp : ℕ} (hlow : slots argp = 0)
    (hhigh : slots (argp + 1) = 0 ∨ slots (argp + 1) = 1) (sign : Bool) :
    takeNumber slots argp .longLong sign = (0, false) := by
  cases sign with
  | false => rw [takeNumber, hlow]
  | true =>
      rw [takeNumber, longLongAt, hlow]
      rcases hhigh with hhigh | hhigh <;> rw [hhigh] <;> rfl

theorem convOut_wide {slots : ℕ → UInt32} {strings : UInt32 → List UInt8} {argp : ℕ} {n : Number}
    {length : Length} (hwide : Wide n length) (hlow : slots argp = 0)
    (hhigh : slots (argp + 1) = 0 ∨ slots (argp + 1) = 1) :
    convOut slots strings argp length (.number n) = digits n.radix 0 := by
  rw [convOut, printfNumber, hwide.2, takeNumber_zero hlow hhigh]
  dsimp only
  rw [if_neg Bool.false_ne_true, List.append_nil]
  exact reverse_fillDigits_word n 0

theorem convOut_narrow {slots : ℕ → UInt32} (strings : UInt32 → List UInt8) {argp : ℕ}
    {length : Length} {kind : Kind} (hfull : ¬ Truncates length kind) (hslot : slots argp = 0) :
    convOut slots strings argp length kind = render strings kind (zeroArg kind) := by
  refine convOut_of_matches strings (matches_small length kind).1 hfull fun j word hj => ?_
  have hwidth := length_argSlots (matches_small length kind).1
  have hone := width_of_narrow hfull
  obtain ⟨hlt, -⟩ := List.getElem?_eq_some_iff.mp hj
  obtain rfl : j = 0 := by omega
  rw [argSlots_zeroArg length kind word (List.mem_of_getElem? hj), Nat.add_zero, hslot]

/-- On a stack of zeros everything prints as zero. -/
theorem output_of_zeros {slots : ℕ → UInt32} (strings : UInt32 → List UInt8) (items : List Item)
    {k : ℕ} (hzero : ∀ j, k ≤ j → slots j = 0) :
    output slots strings items k = expected strings items (zeroArgs items) := by
  induction items generalizing k with
  | nil => rfl
  | cons item items ih =>
      cases item with
      | text c => rw [output, zeroArgs, expected, ih hzero]
      | percent => rw [output, zeroArgs, expected, ih hzero]
      | conv length kind =>
          have hfirst : convOut slots strings k length kind =
              render strings kind (zeroArg kind) := by
            by_cases hfull : Truncates length kind
            · cases kind with
              | number n =>
                  exact convOut_wide hfull (hzero k (Nat.le_refl k))
                    (Or.inl (hzero (k + 1) (Nat.le_succ k)))
              | _ => exact absurd hfull id
            · exact convOut_narrow strings hfull (hzero k (Nat.le_refl k))
          rw [output, zeroArgs, expected, hfirst,
            ih fun j hj => hzero j (Nat.le_trans (Nat.le_add_right k _) hj)]

/-- A stack that lies deeper. -/
theorem output_shift (slots : ℕ → UInt32) (strings : UInt32 → List UInt8) (items : List Item)
    {slots' : ℕ → UInt32} {a : ℕ} (hshift : ∀ j, slots' (j + a) = slots j) (k : ℕ) :
    output slots' strings items (k + a) = output slots strings items k := by
  have htake (argp : ℕ) (length : Length) (sign : Bool) :
      takeNumber slots' (argp + a) length sign = takeNumber slots argp length sign := by
    have hlong : longLongAt slots' (argp + a) = longLongAt slots argp := by
      rw [longLongAt, longLongAt, hshift, Nat.add_right_comm, hshift]
    cases sign with
    | false =>
        rw [takeNumber, takeNumber, hshift]
    | true => cases length <;> simp only [takeNumber, hlong, hshift]
  have hconv (argp : ℕ) (length : Length) (kind : Kind) :
      convOut slots' strings (argp + a) length kind = convOut slots strings argp length kind := by
    cases kind with
    | c => rw [convOut, convOut, hshift]
    | s => rw [convOut, convOut, hshift]
    | number n => rw [convOut, convOut, printfNumber, printfNumber, htake]
  induction items generalizing k with
  | nil => rfl
  | cons item items ih =>
      cases item with
      | text c => rw [output, output, ih]
      | percent => rw [output, output, ih]
      | conv length kind => rw [output, output, hconv, Nat.add_right_comm, ih]

theorem render_oneArg_ne {strings : UInt32 → List UInt8} (hstrings : strings 1 ≠ strings 0)
    (kind : Kind) : render strings kind (oneArg kind) ≠ render strings kind (zeroArg kind) := by
  cases kind with
  | c => exact fun h => absurd (List.head_eq_of_cons_eq h) (by decide)
  | s => exact hstrings
  | number n =>
      have hlow := n.radix_bounds.1
      have hone : render strings (.number n) (.number 1) = [byte '1'] := by
        rw [render, if_neg (by decide), digits, Int.toNat_one, Nat.toDigits_of_lt_base hlow]
        rfl
      have hzero : render strings (.number n) (.number 0) = [byte '0'] := by
        rw [render, if_neg (by decide), digits, Int.toNat_zero,
          Nat.toDigits_of_lt_base (Nat.lt_trans (by decide) hlow)]
        rfl
      rw [oneArg, zeroArg, hone, hzero]
      decide

/-- With a conversion left there are arguments that look different from zeros, and that only
differ from them in the first slot. -/
theorem exists_first_slot {items : List Item} (h : ¬ NoConv items)
    {strings : UInt32 → List UInt8} (hstrings : strings 1 ≠ strings 0) :
    ∃ args, ArgsFor items args ∧
      (∀ j word, (stackOf items args)[j + 1]? = some word → word = 0) ∧
      expected strings items args ≠ expected strings items (zeroArgs items) := by
  induction items with
  | nil => exact absurd (fun _ _ => List.not_mem_nil) h
  | cons item items ih =>
      have hrest (hitem : ∀ length kind, item ≠ .conv length kind) : ¬ NoConv items := fun hnone =>
        h fun length kind hmem => (List.mem_cons.mp hmem).elim (fun heq => hitem _ _ heq.symm)
          (hnone length kind)
      cases item with
      | text c =>
          obtain ⟨args, hargs, hstack, hne⟩ := ih (hrest nofun)
          exact ⟨args, hargs, hstack, fun heq => hne (List.tail_eq_of_cons_eq heq)⟩
      | percent =>
          obtain ⟨args, hargs, hstack, hne⟩ := ih (hrest nofun)
          exact ⟨args, hargs, hstack, fun heq => hne (List.tail_eq_of_cons_eq heq)⟩
      | conv length kind =>
          refine ⟨oneArg kind :: zeroArgs items,
            ⟨(matches_small length kind).2, argsFor_zeroArgs items⟩, fun j word hj => ?_,
            fun heq => render_oneArg_ne hstrings kind (List.append_cancel_right heq)⟩
          have hone : ∀ word ∈ (argSlots length kind (oneArg kind)).tail, word = 0 := by
            cases kind with
            | c => exact nofun
            | s => exact nofun
            | number n =>
                rw [oneArg, argSlots]
                by_cases hwide : Wide n length
                · rw [if_pos hwide]
                  exact List.forall_mem_singleton.mpr rfl
                · rw [if_neg hwide]
                  exact nofun
          rw [stackOf, ← List.getElem?_tail, List.tail_append_of_ne_nil] at hj
          · rcases List.mem_append.mp (List.mem_of_getElem? hj) with hfirst | hothers
            · exact hone word hfirst
            · exact stackOf_zeroArgs items word hothers
          · refine List.ne_nil_of_length_pos ?_
            rw [length_argSlots (matches_small length kind).2]
            exact width_pos length kind

theorem renderable_of_noConv {items : List Item} (h : NoConv items) : Renderable items := by
  induction items with
  | nil => trivial
  | cons item items ih =>
      have hrest := ih fun length kind hmem => h length kind (List.mem_cons_of_mem item hmem)
      cases item with
      | text c => exact hrest
      | percent => exact hrest
      | conv length kind => exact absurd List.mem_cons_self (h length kind)

/-- The upper half of a `long long` is lost. -/
theorem exists_wrong_of_wide (strings : UInt32 → List UInt8) {n : Number} {length : Length}
    (hwide : Wide n length) (items : List Item) :
    ∃ args slots, ArgsFor (.conv length (.number n) :: items) args ∧
      StackedAt slots 0 (stackOf (.conv length (.number n) :: items) args) ∧
      output slots strings (.conv length (.number n) :: items) 0 ≠
        expected strings (.conv length (.number n) :: items) args := by
  have hwords : stackOf (.conv length (.number n) :: items) (.number 4294967296 :: zeroArgs items) =
      0 :: 1 :: stackOf items (zeroArgs items) := by
    rw [stackOf, argSlots, if_pos hwide]
    rfl
  refine ⟨.number 4294967296 :: zeroArgs items, stackWith (0 :: 1 :: stackOf items (zeroArgs items)),
    ⟨?_, argsFor_zeroArgs items⟩, by rw [hwords]; exact stackedAt_stackWith _, ?_⟩
  · rw [Matches, numberBits, if_neg hwide.1, hwide.2]
    by_cases hsign : n.sign = true
    · rw [if_pos hsign]
      decide
    · rw [if_neg hsign]
      decide
  · have hrest : ∀ j, 0 + advance length (.number n) ≤ j →
        stackWith (0 :: 1 :: stackOf items (zeroArgs items)) j = 0 := by
      intro j hj
      rw [hwide.2] at hj
      have hfour : 0 + 4 ≤ j := hj
      obtain ⟨i, rfl⟩ := Nat.exists_eq_add_of_le' (show 2 ≤ j by omega)
      exact stackWith_eq_zero fun word hword =>
        stackOf_zeroArgs items word (List.mem_of_getElem? hword)
    rw [output, expected, convOut_wide hwide rfl (Or.inr rfl), output_of_zeros strings items hrest,
      render, if_neg (by decide)]
    intro heq
    have hlength := congrArg List.length (List.append_cancel_right heq)
    obtain ⟨hlow, hhigh⟩ := n.radix_bounds
    have hshort := (Nat.length_toDigits_le_iff hlow Nat.one_pos).mp (show
      (Nat.toDigits n.radix (4294967296 : ℤ).toNat).length ≤ 1 by
        rw [digits, digits, List.length_map, List.length_map, Nat.toDigits_of_lt_base (by omega)]
          at hlength
        exact Nat.le_of_eq hlength.symm)
    rw [Nat.pow_one] at hshort
    omega

/-- The slot behind a conversion's argument is never read. -/
theorem exists_wrong_of_advance {strings : UInt32 → List UInt8} (hstrings : strings 1 ≠ strings 0)
    {length : Length} {kind : Kind} {items : List Item} (hfull : ¬ Truncates length kind)
    (hfar : StepsTooFar length kind) (hleft : ¬ NoConv items) :
    ∃ args slots, ArgsFor (.conv length kind :: items) args ∧
      StackedAt slots 0 (stackOf (.conv length kind :: items) args) ∧
      output slots strings (.conv length kind :: items) 0 ≠
        expected strings (.conv length kind :: items) args := by
  obtain ⟨args, hargs, hstack, hne⟩ := exists_first_slot hleft hstrings
  have hone := width_of_narrow hfull
  have hwords : stackOf (.conv length kind :: items) (zeroArg kind :: args) =
      0 :: stackOf items args := by
    rw [stackOf, argSlots_narrow hfull]
    rfl
  refine ⟨zeroArg kind :: args, stackWith (0 :: stackOf items args),
    ⟨(matches_small length kind).1, hargs⟩, by rw [hwords]; exact stackedAt_stackWith _, ?_⟩
  have hrest : ∀ j, 0 + advance length kind ≤ j → stackWith (0 :: stackOf items args) j = 0 := by
    intro j hj
    have hstep := mt (advance_eq_width_iff hfull).mp (not_not.mpr hfar)
    have := advance_pos length kind
    obtain ⟨i, rfl⟩ := Nat.exists_eq_add_of_le' (show 2 ≤ j by omega)
    exact stackWith_eq_zero fun word hword => hstack i word hword
  rw [output, expected, convOut_narrow strings hfull rfl, output_of_zeros strings items hrest]
  exact fun heq => hne (List.append_cancel_left heq).symm

/-- The arguments that show that a format is not renderable. -/
theorem exists_wrong {strings : UInt32 → List UInt8} (hstrings : strings 1 ≠ strings 0)
    {items : List Item} (h : ¬ Renderable items) : ∃ args slots, ArgsFor items args ∧
      StackedAt slots 0 (stackOf items args) ∧
      output slots strings items 0 ≠ expected strings items args := by
  induction items with
  | nil => exact absurd trivial h
  | cons item items ih =>
      cases item with
      | text c =>
          obtain ⟨args, slots, hargs, hstack, hne⟩ := ih h
          exact ⟨args, slots, hargs, hstack, fun heq => hne (List.tail_eq_of_cons_eq heq)⟩
      | percent =>
          obtain ⟨args, slots, hargs, hstack, hne⟩ := ih h
          exact ⟨args, slots, hargs, hstack, fun heq => hne (List.tail_eq_of_cons_eq heq)⟩
      | conv length kind =>
          by_cases hfull : Truncates length kind
          · cases kind with
            | number n => exact exists_wrong_of_wide strings hfull items
            | _ => exact absurd hfull id
          · by_cases hfar : StepsTooFar length kind
            · exact exists_wrong_of_advance hstrings hfull hfar fun hnone =>
                h ⟨hfull, fun _ => hnone, renderable_of_noConv hnone⟩
            · -- the conversion takes its own argument: the fault is in one behind it
              obtain ⟨args, slots, hargs, hstack, hne⟩ := ih fun hrest =>
                h ⟨hfull, fun hfar' => absurd hfar' hfar, hrest⟩
              have hstep := (advance_eq_width_iff hfull).mpr hfar
              have hone := width_of_narrow hfull
              refine ⟨zeroArg kind :: args, fun j => if j = 0 then 0 else slots (j - 1),
                ⟨(matches_small length kind).1, hargs⟩, ?_, ?_⟩
              · rw [stackOf, argSlots_narrow hfull]
                intro j word hj
                cases j with
                | zero => exact Option.some.inj hj
                | succ j =>
                    have hslot := hstack j word hj
                    rw [Nat.zero_add] at hslot ⊢
                    exact hslot
              · rw [output, expected, convOut_narrow strings hfull (if_pos rfl), hstep, hone,
                  output_shift slots strings items (fun j => rfl) 0]
                exact fun heq => hne (List.append_cancel_left heq)

/-- Memory with an empty string at address 0 and others elsewhere. -/
def stringAt (p : UInt32) : List UInt8 := if p = 0 then [] else [byte 'a']

/-- **When every argument is rendered.** For every format, what `printf` outputs is right for
all arguments of the format exactly when no conversion is a number with `ll`, and none with
`l` or `ll` that is not of a character has another one behind it. -/
theorem rendersAll_iff (items : List Item) : RendersAll items ↔ Renderable items := by
  constructor
  · intro h
    by_contra hnot
    obtain ⟨args, slots, hargs, hstack, hne⟩ :=
      exists_wrong (show stringAt 1 ≠ stringAt 0 by decide) hnot
    refine hne ?_
    rw [← printf_formatOf]
    exact h args hargs slots _ hstack
  · intro h args hargs slots strings hstack
    rw [printf_formatOf]
    exact output_of_renderable strings h hargs hstack

/-- `%ld %d` shows the second argument as zero, and `%llu` shows 2 to the 32nd as zero. -/
theorem not_rendersAll :
    printf (stackWith [1, 2]) (fun _ => []) (['%', 'l', 'd', ' ', '%', 'd'].map byte) =
        ['1', ' ', '0'].map byte ∧
      printf (stackWith [0, 1]) (fun _ => []) (['%', 'l', 'l', 'u'].map byte) = ['0'].map byte ∧
      ¬ RendersAll [.conv .long (.number .d), .text ⟨byte ' ', by decide⟩,
        .conv .start (.number .d)] ∧
      ¬ RendersAll [.conv .longLong (.number .u)] := by
  have hruns : printf (stackWith [1, 2]) (fun _ => []) (['%', 'l', 'd', ' ', '%', 'd'].map byte) =
        ['1', ' ', '0'].map byte ∧
      printf (stackWith [0, 1]) (fun _ => []) (['%', 'l', 'l', 'u'].map byte) = ['0'].map byte := by
    decide +kernel
  refine ⟨hruns.1, hruns.2, fun h => ?_, fun h => ?_⟩
  · have hright := h [.number 1, .number 2] ⟨by rw [Matches]; decide, by rw [Matches]; decide, rfl⟩
      (stackWith [1, 2]) (fun _ => []) (stackedAt_stackWith _)
    exact absurd (hruns.1.symm.trans hright) (by decide +kernel)
  · have hright := h [.number 4294967296] ⟨by rw [Matches]; decide, rfl⟩ (stackWith [0, 1])
      (fun _ => []) (stackedAt_stackWith _)
    exact absurd (hruns.2.symm.trans hright) (by decide +kernel)

end MasterOS.Stdlib
